import Libio.Core.TimerProcess
import Libio.Foundation.Transition
import Mathlib.Logic.Function.Basic
import Mathlib.Data.List.Nodup
import Mathlib.Tactic.Choose

/-! # The schedule a timer manager keeps

What the timer manager is for: a schedule, in which each pending timer stands under its id with its
deadline. The set of the manager is ordered by deadline alone, so it keeps a timer only where no
pending one has the same deadline, and it gives an id back by a member that was never written.
`refines_schedule` says that the manager keeps the schedule in every run that stays clear of
both. -/

namespace Libio

universe u

variable {κ : Type u}

/-! ## Schedules -/

/-- A time in microseconds. -/
def Timeval.micros (a : Timeval) : ℤ := a.sec * 1000000 + a.usec

/-- A time as `gettimeofday` gives it. -/
def Timeval.Normal (a : Timeval) : Prop := 0 ≤ a.usec ∧ a.usec < 1000000

instance : DecidablePred Timeval.Normal := fun _ => inferInstanceAs (Decidable (_ ∧ _))

/-- A pending timer, its times in microseconds. -/
structure Scheduled (κ : Type u) where
  deadline : ℤ
  delay : ℤ
  persistent : Bool
  callback : κ

/-- The pending timers, each under its id. -/
abbrev Schedule (κ : Type u) := ℤ → Option (Scheduled κ)

namespace Schedule

/-- What is left of a timer when it runs. -/
def rearm (now : ℤ) (e : Scheduled κ) : Option (Scheduled κ) :=
  if e.persistent then some { e with deadline := now + e.delay } else none

/-- The pending timers after all those that are due have run. -/
def after (s : Schedule κ) (now : ℤ) : Schedule κ := fun id =>
  (s id).bind fun e => if e.deadline ≤ now then rearm now e else some e

/-- `fired` are the ids of the timers that are due, each once and in order of their deadlines. -/
structure Fires (s : Schedule κ) (now : ℤ) (fired : List ℤ) : Prop where
  nodup : fired.Nodup
  due : ∀ id, id ∈ fired ↔ ∃ e ∈ s id, e.deadline ≤ now
  order : fired.Pairwise fun i j => ∀ e ∈ s i, ∀ e' ∈ s j, e.deadline ≤ e'.deadline

/-- What each call does to the schedule, and what it shows. -/
inductive Step : Schedule κ → TimerCall κ × TimerReply κ → Schedule κ → Prop
  | setTimer {s : Schedule κ} {now : Timeval} {sec usec : ℤ} {persistent : Bool} {callback : κ}
      {left id : ℤ} : s id = none →
      Step s (.setTimer now sec usec persistent callback left, .id id)
        (Function.update s id (some
          ⟨now.micros + (⟨sec, usec⟩ : Timeval).micros, (⟨sec, usec⟩ : Timeval).micros, persistent,
            callback⟩))
  | setPersistent {s : Schedule κ} {id : ℤ} :
      Step s (.setPersistent id, .done)
        (Function.update s id ((s id).map fun e => { e with persistent := true }))
  | remove {s : Schedule κ} {id : ℤ} :
      Step s (.remove id, .done) (Function.update s id none)
  | process {s : Schedule κ} {now : Timeval} {fired : List ℤ} : s.Fires now.micros fired →
      Step s (.process now, .ran (fired.filterMap fun id => (s id).map Scheduled.callback))
        (s.after now.micros)

/-- What a step of the schedule for `process` says. -/
theorem Step.process_inv {s s' : Schedule κ} {now : Timeval} {reply : TimerReply κ}
    (h : Step s (.process now, reply) s') : ∃ fired, s.Fires now.micros fired ∧
      reply = .ran (fired.filterMap fun id => (s id).map Scheduled.callback) := by
  cases h with
  | process hf => exact ⟨_, hf, rfl⟩

/-- What a step of the schedule for `set_timer` says. -/
theorem Step.setTimer_inv {s s' : Schedule κ} {now : Timeval} {sec usec left id : ℤ}
    {persistent : Bool} {callback : κ}
    (h : Step s (.setTimer now sec usec persistent callback left, .id id) s') :
    s' = Function.update s id (some
      ⟨now.micros + (⟨sec, usec⟩ : Timeval).micros, (⟨sec, usec⟩ : Timeval).micros, persistent,
        callback⟩) := by
  cases h
  rfl

end Schedule

/-- Schedules as a transition system, which starts with no timer. -/
def schedules (κ : Type u) : Lts (Schedule κ) (TimerCall κ × TimerReply κ) where
  init s := s = fun _ => none
  step := Schedule.Step

/-! ## Times -/

/-- The microseconds of a sum add up. -/
theorem micros_timeradd (a b : Timeval) : (timeradd a b).micros = a.micros + b.micros := by
  unfold timeradd
  split <;> simp only [Timeval.micros] <;> omega

/-- A sum of normalised times is normalised. -/
theorem Timeval.Normal.timeradd {a b : Timeval} (ha : a.Normal) (hb : b.Normal) :
    (timeradd a b).Normal := by
  unfold Timeval.Normal Libio.timeradd at *
  split <;> simp only <;> omega

/-- On normal times the comparison of the set is that of the times in microseconds. -/
theorem timercmp_iff {a b : Timeval} (ha : a.Normal) (hb : b.Normal) :
    timercmp a b = true ↔ a.micros < b.micros := by
  unfold timercmp Timeval.Normal Timeval.micros at *
  split <;> simp only [decide_eq_true_eq] <;> omega

/-! ## The system and its condition -/

namespace TimerManager

/-- The timer manager as a transition system. -/
def system (κ : Type u) : Lts (TimerManager κ) (TimerCall κ × TimerReply κ) where
  init m := m = {}
  step m l m' := m.exec l.1 = .ok (l.2, m')

/-- The calls in question: delays are positive, and the clock is `gettimeofday`. -/
def Admissible : TimerCall κ → Prop
  | .setTimer now sec usec _ _ _ => now.Normal ∧ 0 < (⟨sec, usec⟩ : Timeval).micros
  | .process now => now.Normal
  | _ => True

instance (call : TimerCall κ) : Decidable (Admissible call) :=
  match call with
  | .setTimer .. => inferInstanceAs (Decidable (_ ∧ _))
  | .process now => inferInstanceAs (Decidable now.Normal)
  | .setPersistent _ | .remove _ => inferInstanceAs (Decidable True)

variable (m : TimerManager κ)

/-- The deadline of a timer. -/
def deadline (a : ℕ) : ℤ := (m.timeout a).micros

/-- A timer that is pending after the due ones have run. -/
def Survives (now : Timeval) (a : ℕ) : Prop :=
  ∃ t ∈ m.heap a, t.persistent = true ∨ now.micros < t.timeout.micros

/-- The deadline such a timer has then. -/
def nextDeadline (now : Timeval) (a : ℕ) : ℤ :=
  (m.heap a).elim 0 fun t =>
    if t.timeout.micros ≤ now.micros then now.micros + t.tv.micros else t.timeout.micros

/-- A call that stays clear of the defects: a new deadline is that of no pending timer and is
written with a normal delay, the ids are not used up, no call names a timer that has finished, and
what the finished timers have in their member `id` is the id of no timer that stays. -/
def Clear : TimerCall κ → Prop
  | .setTimer now sec usec _ _ _ =>
      (⟨sec, usec⟩ : Timeval).Normal ∧
        (∀ a ∈ m.timers, m.deadline a ≠ now.micros + (⟨sec, usec⟩ : Timeval).micros) ∧
          ∀ k ∈ m.idtimer.keys.head?, k ≤ 0 → m.maxid < intMax
  | .setPersistent id => ∀ a ∈ m.idtimer[id]?, (m.heap a).isSome
  | .remove id => ∀ a ∈ m.idtimer[id]?, (m.heap a).isSome
  | .process now =>
      (∀ a ∈ m.timers, ∀ b ∈ m.timers, m.Survives now a → m.Survives now b →
        m.nextDeadline now a = m.nextDeadline now b → a = b) ∧
        ∀ a ∈ m.timers, ¬m.Survives now a → ∀ t ∈ m.heap a, ∀ b ∈ m.timers, m.Survives now b →
          m.idtimer[t.id]? ≠ some b

instance (now : Timeval) (a : ℕ) : Decidable (m.Survives now a) :=
  inferInstanceAs (Decidable (∃ t ∈ m.heap a, _))

instance (call : TimerCall κ) : Decidable (m.Clear call) :=
  match call with
  | .setTimer .. => inferInstanceAs (Decidable (_ ∧ _))
  | .setPersistent id => inferInstanceAs (Decidable (∀ a ∈ m.idtimer[id]?, _))
  | .remove id => inferInstanceAs (Decidable (∀ a ∈ m.idtimer[id]?, _))
  | .process _ => inferInstanceAs (Decidable (_ ∧ _))

/-- A step that is taken with such a call. -/
def Allowed (l : TimerCall κ × TimerReply κ) : Prop := Admissible l.1 ∧ m.Clear l.1

instance (l : TimerCall κ × TimerReply κ) : Decidable (m.Allowed l) :=
  inferInstanceAs (Decidable (_ ∧ _))

/-- A timer in the schedule. -/
def scheduled (t : Timer κ) : Scheduled κ :=
  ⟨t.timeout.micros, t.tv.micros, t.persistent, t.callback⟩

/-- The schedule a manager keeps. -/
def schedule : Schedule κ := fun id => (m.idtimer[id]?).bind fun a => (m.heap a).map scheduled

/-- The invariant: the set holds the timers that are allocated, each of them under one id. -/
structure Sound : Prop where
  live : ∀ a, a ∈ m.timers ↔ (m.heap a).isSome
  named : ∀ a ∈ m.timers, ∃ id : ℤ, m.idtimer[id]? = some a
  name_unique : ∀ a ∈ m.timers, ∀ i j : ℤ,
    m.idtimer[i]? = some a → m.idtimer[j]? = some a → i = j
  sorted : OrderedSet.Sorted m.deadline m.timers
  delay : ∀ a, ∀ t ∈ m.heap a, t.tv.Normal ∧ 0 < t.tv.micros
  normal : ∀ a, ∀ t ∈ m.heap a, t.timeout.Normal
  heap_lt : ∀ a, (m.heap a).isSome → a < m.next
  idtimer_lt : ∀ (id : ℤ) (a : ℕ), m.idtimer[id]? = some a → a < m.next
  ids : 0 ≤ m.maxid ∧ ∀ (id : ℤ) (a : ℕ), m.idtimer[id]? = some a → 0 ≤ id ∧ id ≤ m.maxid

variable {m}

/-- The manager without timers is sound. -/
theorem Sound.start : Sound ({} : TimerManager κ) where
  live := by simp
  named := by simp
  name_unique := by simp
  sorted := .nil
  delay := by simp
  normal := by simp
  heap_lt := by simp
  idtimer_lt := by simp
  ids := by simp

/-- The comparison of the set is that of the deadlines. -/
theorem compares (h : ∀ a, ∀ t ∈ m.heap a, t.timeout.Normal) (a : ℕ) (l : List ℕ) :
    OrderedSet.Compares m.before m.deadline a l := by
  have hnormal : ∀ a, (m.timeout a).Normal := by
    intro a
    unfold timeout
    cases ht : m.heap a with
    | none => simp [Timeval.Normal]
    | some t => exact h a t ht
  exact fun b _ => ⟨timercmp_iff (hnormal a) (hnormal b), timercmp_iff (hnormal b) (hnormal a)⟩

/-- The deadlines when a timer is stored. -/
theorem deadline_store (a : ℕ) (t : Timer κ) (b : ℕ) :
    (m.store a t).deadline b = if b = a then t.timeout.micros else m.deadline b := by
  unfold deadline timeout store
  by_cases h : b = a <;> simp [h]

/-- The other deadlines when a timer is deleted. -/
theorem deadline_free {a b : ℕ} (h : b ≠ a) : (m.free a).deadline b = m.deadline b := by
  simp [deadline, timeout, free, h]

/-! ## Setting a timer -/

/-- An id that is handed out is new, where those in use are between 0 and `maxid`. -/
theorem getId_fresh {id : ℤ} {m' : TimerManager κ} (hmax : 0 ≤ m.maxid)
    (hids : ∀ (i : ℤ) (a : ℕ), m.idtimer[i]? = some a → 0 ≤ i ∧ i ≤ m.maxid)
    (h : m.getId = .ok (id, m')) :
    ∃ maxid, m' = { m with maxid := maxid } ∧ m.idtimer[id]? = none ∧ 0 ≤ id ∧ id ≤ maxid ∧
      m.maxid ≤ maxid := by
  unfold TimerManager.getId at h
  rw [← Std.ExtTreeMap.minKey?_eq_head?_keys] at h
  cases hmin : m.idtimer.minKey? with
  | none =>
      have hempty : m.idtimer = ∅ := Std.ExtTreeMap.minKey?_eq_none_iff.mp hmin
      rw [hmin] at h
      obtain ⟨rfl, rfl⟩ := Prod.mk.inj (Except.ok.inj h)
      exact ⟨m.maxid, rfl, by simp [hempty], le_rfl, hmax, le_rfl⟩
  | some k =>
      obtain ⟨hmem, hle⟩ := Std.ExtTreeMap.minKey?_eq_some_iff_mem_and_forall.mp hmin
      obtain ⟨a, ha⟩ := Option.isSome_iff_exists.mp
        (Std.ExtTreeMap.mem_iff_isSome_getElem?.mp hmem)
      have hk := hids k a ha
      rw [hmin] at h
      simp only at h
      by_cases hpos : k > 0
      · rw [if_pos hpos] at h
        obtain ⟨rfl, rfl⟩ := Prod.mk.inj (Except.ok.inj h)
        refine ⟨m.maxid, rfl, ?_, by omega, by omega, le_rfl⟩
        -- an id below the smallest one is in no entry
        by_contra hne
        obtain ⟨b, hb⟩ := Option.ne_none_iff_exists'.mp hne
        have := hle (k - 1) (Std.ExtTreeMap.mem_iff_isSome_getElem?.mpr (by simp [hb]))
        rw [Int.isLE_compare] at this
        omega
      · rw [if_neg hpos] at h
        split at h
        · obtain ⟨rfl, rfl⟩ := Prod.mk.inj (Except.ok.inj h)
          refine ⟨m.maxid + 1, rfl, ?_, by omega, le_rfl, by omega⟩
          by_contra hne
          obtain ⟨b, hb⟩ := Option.ne_none_iff_exists'.mp hne
          have := (hids _ b hb).2
          omega
        · cases h

/-- An id is found as long as `maxid` may grow. -/
theorem getId_ok (hmax : ∀ k ∈ m.idtimer.keys.head?, k ≤ 0 → m.maxid < intMax) :
    ∃ id m', m.getId = .ok (id, m') := by
  unfold TimerManager.getId
  cases hk : m.idtimer.keys.head? with
  | none => exact ⟨_, _, rfl⟩
  | some k =>
      simp only
      by_cases hpos : k > 0
      · exact ⟨_, _, if_pos hpos⟩
      · rw [if_neg hpos, if_pos (hmax k hk (by omega))]
        exact ⟨_, _, rfl⟩

/-- A sound manager gives an id that is free and not negative, unless the ids are used up. -/
theorem Sound.getId (h : m.Sound) (hmax : ∀ k ∈ m.idtimer.keys.head?, k ≤ 0 → m.maxid < intMax) :
    ∃ id maxid, m.getId = .ok (id, { m with maxid := maxid }) ∧ m.idtimer[id]? = none ∧ 0 ≤ id ∧
      id ≤ maxid ∧ m.maxid ≤ maxid := by
  obtain ⟨id, m', hget⟩ := getId_ok hmax
  obtain ⟨maxid, rfl, hfresh⟩ := getId_fresh h.ids.1 h.ids.2 hget
  exact ⟨id, maxid, hget, hfresh⟩

/-- The manager after `set_timer`, the id chosen. -/
def armed (m : TimerManager κ) (id maxid : ℤ) (t : Timer κ) : TimerManager κ :=
  insert (store { m with
    maxid := maxid, next := m.next + 1, idtimer := m.idtimer.insert id m.next } m.next t) m.next

section Armed

variable {id maxid : ℤ} {t : Timer κ}

/-- The timers behind `set_timer`. -/
theorem heap_armed (a : ℕ) :
    (m.armed id maxid t).heap a = if a = m.next then some t else m.heap a := rfl

/-- The ids behind `set_timer`. -/
theorem getElem?_armed (i : ℤ) :
    (m.armed id maxid t).idtimer[i]? = if id = i then some m.next else m.idtimer[i]? := by
  simp [armed, insert, store, Std.ExtTreeMap.getElem?_insert]

/-- The deadlines behind `set_timer`. -/
theorem deadline_armed (a : ℕ) :
    (m.armed id maxid t).deadline a = if a = m.next then t.timeout.micros else m.deadline a := by
  have h : (m.armed id maxid t).deadline a = (m.store m.next t).deadline a := rfl
  rw [h, deadline_store]

/-- A timer of a new deadline enters the set. -/
theorem Sound.timers_armed (h : m.Sound) (ht : t.timeout.Normal)
    (hnew : ∀ a ∈ m.timers, m.deadline a ≠ t.timeout.micros) :
    OrderedSet.Sorted (m.armed id maxid t).deadline (m.armed id maxid t).timers ∧
      ∀ a, a ∈ (m.armed id maxid t).timers ↔ a = m.next ∨ a ∈ m.timers := by
  let m' : TimerManager κ := store { m with
    maxid := maxid, next := m.next + 1, idtimer := m.idtimer.insert id m.next } m.next t
  have hold : ∀ a ∈ m.timers, a ≠ m.next :=
    fun a ha => (h.heap_lt a ((h.live a).mp ha)).ne
  have hdeadline : ∀ a ∈ m.timers, m'.deadline a = m.deadline a :=
    fun a ha => (deadline_armed a).trans (if_neg (hold a ha))
  have hcompares : OrderedSet.Compares m'.before m'.deadline m.next m.timers := by
    refine compares (fun a t' ht' => ?_) _ _
    by_cases ha : a = m.next
    · obtain rfl : t = t' := by simpa [m', store, ha] using ht'
      exact ht
    · exact h.normal a t' (by simpa [m', store, ha] using ht')
  have hnext : m'.deadline m.next = t.timeout.micros := (deadline_armed m.next).trans (if_pos rfl)
  have hfresh : ∀ a ∈ m.timers, m'.deadline a ≠ m'.deadline m.next := by
    intro a ha
    rw [hdeadline a ha, hnext]
    exact hnew a ha
  have hsorted : OrderedSet.Sorted m'.deadline m.timers := by
    refine List.Pairwise.imp_of_mem (fun {a b} ha hb hlt => ?_) h.sorted
    rw [hdeadline a ha, hdeadline b hb]
    exact hlt
  exact ⟨hsorted.insertBy hcompares hfresh, OrderedSet.mem_insertBy hcompares hfresh⟩

/-- `set_timer` keeps a sound manager sound, when the deadline is new. -/
theorem Sound.armed (h : m.Sound) (hid : m.idtimer[id]? = none) (hid0 : 0 ≤ id)
    (hidmax : id ≤ maxid) (hmax : m.maxid ≤ maxid) (hdelay : t.tv.Normal ∧ 0 < t.tv.micros)
    (ht : t.timeout.Normal) (hnew : ∀ a ∈ m.timers, m.deadline a ≠ t.timeout.micros) :
    (m.armed id maxid t).Sound := by
  obtain ⟨hsorted, hmem⟩ : OrderedSet.Sorted (m.armed id maxid t).deadline (m.armed id maxid t).timers ∧
      ∀ a, a ∈ (m.armed id maxid t).timers ↔ a = m.next ∨ a ∈ m.timers := h.timers_armed ht hnew
  have hheap : ∀ a, ∀ t' ∈ (m.armed id maxid t).heap a,
      (a = m.next ∧ t' = t) ∨ (a ≠ m.next ∧ t' ∈ m.heap a) := by
    intro a t' ht'
    rw [heap_armed] at ht'
    by_cases ha : a = m.next
    · exact .inl ⟨ha, by simpa [ha, eq_comm] using ht'⟩
    · exact .inr ⟨ha, by simpa [ha] using ht'⟩
  have hentry : ∀ (i : ℤ) (a : ℕ), (m.armed id maxid t).idtimer[i]? = some a →
      (i = id ∧ a = m.next) ∨ (i ≠ id ∧ m.idtimer[i]? = some a) := by
    intro i a hi
    rw [getElem?_armed] at hi
    by_cases he : id = i
    · exact .inl ⟨he.symm, by simpa [he, eq_comm] using hi⟩
    · exact .inr ⟨Ne.symm he, by simpa [he] using hi⟩
  constructor
  case live =>
    intro a
    rw [hmem, heap_armed, h.live]
    by_cases ha : a = m.next <;> simp [ha]
  case named =>
    intro a ha
    rcases (hmem a).mp ha with rfl | ha
    · exact ⟨id, by simp [getElem?_armed]⟩
    · obtain ⟨i, hi⟩ := h.named a ha
      have hne : id ≠ i := by
        rintro rfl
        simp [hid] at hi
      exact ⟨i, by simpa [getElem?_armed, hne] using hi⟩
  case name_unique =>
    intro a ha i j hi hj
    rcases hentry i a hi with ⟨hi', ha'⟩ | ⟨-, hi'⟩
    · rcases hentry j a hj with ⟨hj', -⟩ | ⟨-, hj'⟩
      · rw [hi', hj']
      · exact absurd ha' (h.idtimer_lt j a hj').ne
    · have hne : a ≠ m.next := (h.idtimer_lt i a hi').ne
      rcases hentry j a hj with ⟨-, ha'⟩ | ⟨-, hj'⟩
      · exact absurd ha' hne
      · exact h.name_unique a (((hmem a).mp ha).resolve_left hne) i j hi' hj'
  case sorted => exact hsorted
  case delay =>
    intro a t' ht'
    rcases hheap a t' ht' with ⟨-, rfl⟩ | ⟨-, ht'⟩
    · exact hdelay
    · exact h.delay a t' ht'
  case normal =>
    intro a t' ht'
    rcases hheap a t' ht' with ⟨-, rfl⟩ | ⟨-, ht'⟩
    · exact ht
    · exact h.normal a t' ht'
  case heap_lt =>
    intro a ha
    obtain ⟨t', ht'⟩ := Option.isSome_iff_exists.mp ha
    rcases hheap a t' ht' with ⟨rfl, -⟩ | ⟨-, ht'⟩
    · exact Nat.lt_succ_self _
    · exact (h.heap_lt a (Option.isSome_iff_exists.mpr ⟨t', ht'⟩)).trans (Nat.lt_succ_self _)
  case idtimer_lt =>
    intro i a hi
    rcases hentry i a hi with ⟨-, rfl⟩ | ⟨-, hi⟩
    · exact Nat.lt_succ_self _
    · exact (h.idtimer_lt i a hi).trans (Nat.lt_succ_self _)
  case ids =>
    refine ⟨h.ids.1.trans hmax, fun i a hi => ?_⟩
    rcases hentry i a hi with ⟨rfl, -⟩ | ⟨-, hi⟩
    · exact ⟨hid0, hidmax⟩
    · exact ⟨(h.ids.2 i a hi).1, (h.ids.2 i a hi).2.trans hmax⟩

/-- The timer stands in the schedule under its id. -/
theorem Sound.schedule_armed (h : m.Sound) :
    (m.armed id maxid t).schedule = Function.update m.schedule id (some (scheduled t)) := by
  funext i
  by_cases hi : i = id
  · subst hi
    simp [schedule, getElem?_armed, heap_armed]
  · rw [Function.update_of_ne hi]
    simp only [schedule, getElem?_armed, if_neg (Ne.symm hi)]
    cases ha : m.idtimer[i]? with
    | none => rfl
    | some a =>
        have hne : a ≠ m.next := (h.idtimer_lt i a ha).ne
        simp [heap_armed, hne]

end Armed

/-! ## The calls that name a timer -/

/-- Making a timer persistent changes neither its deadline nor its delay. -/
theorem Sound.persist (h : m.Sound) {a : ℕ} {t : Timer κ} (ht : m.heap a = some t) :
    (m.store a { t with persistent := true }).Sound := by
  have hheap : ∀ b, ∀ t' ∈ (m.store a { t with persistent := true }).heap b,
      ∃ t₀ ∈ m.heap b, t'.tv = t₀.tv ∧ t'.timeout = t₀.timeout := by
    intro b t' ht'
    by_cases hb : b = a
    · subst hb
      obtain rfl : { t with persistent := true } = t' := by simpa [store] using ht'
      exact ⟨t, ht, rfl, rfl⟩
    · exact ⟨t', by simpa [store, hb] using ht', rfl, rfl⟩
  have hsome : ∀ b, ((m.store a { t with persistent := true }).heap b).isSome =
      (m.heap b).isSome := by
    intro b
    by_cases hb : b = a
    · simp [store, hb, ht]
    · simp [store, hb]
  constructor
  case live => exact fun b => (h.live b).trans (by rw [hsome])
  case named => exact h.named
  case name_unique => exact h.name_unique
  case sorted =>
    refine List.Pairwise.imp (fun {b c} hlt => ?_) h.sorted
    have hsame : t.timeout.micros = m.deadline a := by simp [deadline, timeout, ht]
    rw [deadline_store, deadline_store, hsame]
    by_cases hb : b = a <;> by_cases hc : c = a <;> simp_all
  case delay =>
    intro b t' ht'
    obtain ⟨t₀, ht₀, htv, -⟩ := hheap b t' ht'
    rw [htv]
    exact h.delay b t₀ ht₀
  case normal =>
    intro b t' ht'
    obtain ⟨t₀, ht₀, -, hto⟩ := hheap b t' ht'
    rw [hto]
    exact h.normal b t₀ ht₀
  case heap_lt => exact fun b hb => h.heap_lt b (by rw [← hsome]; exact hb)
  case idtimer_lt => exact h.idtimer_lt
  case ids => exact h.ids

/-- `set_persistent` marks one timer of the schedule. -/
theorem Sound.schedule_persist (h : m.Sound) {id : ℤ} {a : ℕ} {t : Timer κ}
    (hid : m.idtimer[id]? = some a) (ht : m.heap a = some t) :
    (m.store a { t with persistent := true }).schedule =
      Function.update m.schedule id
        ((m.schedule id).map fun e => { e with persistent := true }) := by
  have ha : a ∈ m.timers := (h.live a).mpr (by simp [ht])
  funext i
  by_cases hi : i = id
  · subst hi
    simp [schedule, store, hid, ht, scheduled]
  · rw [Function.update_of_ne hi]
    simp only [schedule, store]
    cases hb : m.idtimer[i]? with
    | none => rfl
    | some b =>
        have hne : b ≠ a := fun e => hi (h.name_unique a ha i id (e ▸ hb) hid)
        simp [hne]

/-- The manager after `remove`, the timer found. -/
def removed (m : TimerManager κ) (id : ℤ) (a : ℕ) : TimerManager κ :=
  free { m with
    timers := OrderedSet.eraseBy m.before a m.timers, idtimer := m.idtimer.erase id } a

/-- `remove` takes one timer out of the set. -/
theorem Sound.mem_removed (h : m.Sound) {id : ℤ} {a : ℕ} (ha : a ∈ m.timers) (b : ℕ) :
    b ∈ (m.removed id a).timers ↔ b ∈ m.timers ∧ b ≠ a := by
  refine (OrderedSet.mem_eraseBy h.sorted (compares h.normal a _) b).trans ?_
  refine and_congr_right fun hb => not_congr ⟨fun hk => ?_, fun e => by rw [e]⟩
  exact h.sorted.eq_of_key hb ha hk

/-- The ids behind `remove`. -/
theorem getElem?_removed (id : ℤ) (a : ℕ) (i : ℤ) :
    (m.removed id a).idtimer[i]? = if id = i then none else m.idtimer[i]? := by
  simp [removed, free, Std.ExtTreeMap.getElem?_erase]

/-- The timers behind `remove`. -/
theorem heap_removed (id : ℤ) (a b : ℕ) :
    (m.removed id a).heap b = if b = a then none else m.heap b := rfl

/-- Removing a timer by its id takes that timer out of the set and of the map. -/
theorem Sound.removed (h : m.Sound) {id : ℤ} {a : ℕ} (hid : m.idtimer[id]? = some a)
    (ha : a ∈ m.timers) : (m.removed id a).Sound := by
  have hmem : ∀ b, b ∈ (m.removed id a).timers ↔ b ∈ m.timers ∧ b ≠ a := h.mem_removed ha
  have hentry : ∀ (i : ℤ) (b : ℕ), (m.removed id a).idtimer[i]? = some b →
      m.idtimer[i]? = some b := by
    intro i b hi
    rw [getElem?_removed] at hi
    split at hi
    · cases hi
    · exact hi
  have hheap : ∀ b, ∀ t ∈ (m.removed id a).heap b, t ∈ m.heap b := by
    intro b t ht
    rw [heap_removed] at ht
    split at ht
    · cases ht
    · exact ht
  constructor
  case live =>
    intro b
    rw [hmem, heap_removed, h.live]
    by_cases hb : b = a <;> simp [hb]
  case named =>
    intro b hb
    obtain ⟨hb, hne⟩ := (hmem b).mp hb
    obtain ⟨i, hi⟩ := h.named b hb
    have hii : id ≠ i := by
      rintro rfl
      exact hne (Option.some.inj (hi.symm.trans hid))
    exact ⟨i, by rw [getElem?_removed, if_neg hii, hi]⟩
  case name_unique =>
    intro b hb i j hi hj
    exact h.name_unique b ((hmem b).mp hb).1 i j (hentry i b hi) (hentry j b hj)
  case sorted =>
    have hsub : OrderedSet.Sorted m.deadline (m.removed id a).timers :=
      h.sorted.sublist (OrderedSet.eraseBy_sublist _ _ _)
    refine List.Pairwise.imp_of_mem (fun {b c} hb hc hlt => ?_) hsub
    have hdeadline : ∀ x ∈ (m.removed id a).timers, (m.removed id a).deadline x = m.deadline x :=
      fun x hx => deadline_free ((hmem x).mp hx).2
    rw [hdeadline b hb, hdeadline c hc]
    exact hlt
  case delay => exact fun b t ht => h.delay b t (hheap b t ht)
  case normal => exact fun b t ht => h.normal b t (hheap b t ht)
  case heap_lt =>
    intro b hb
    obtain ⟨t, ht⟩ := Option.isSome_iff_exists.mp hb
    exact h.heap_lt b (Option.isSome_iff_exists.mpr ⟨t, hheap b t ht⟩)
  case idtimer_lt => exact fun i b hi => h.idtimer_lt i b (hentry i b hi)
  case ids => exact ⟨h.ids.1, fun i b hi => h.ids.2 i b (hentry i b hi)⟩

/-- `remove` takes one timer out of the schedule. -/
theorem Sound.schedule_removed (h : m.Sound) {id : ℤ} {a : ℕ} (hid : m.idtimer[id]? = some a)
    (ha : a ∈ m.timers) :
    (m.removed id a).schedule = Function.update m.schedule id none := by
  funext i
  by_cases hi : i = id
  · subst hi
    simp [schedule, getElem?_removed]
  · rw [Function.update_of_ne hi]
    simp only [schedule, getElem?_removed, if_neg (Ne.symm hi)]
    cases hb : m.idtimer[i]? with
    | none => rfl
    | some b =>
        have hne : b ≠ a := fun e => hi (h.name_unique a ha i id (e ▸ hb) hid)
        simp [heap_removed, hne]

/-- An id in no entry stands for no timer. -/
theorem update_schedule_none {id : ℤ} (hid : m.idtimer[id]? = none) :
    Function.update m.schedule id none = m.schedule := by
  rw [Function.update_eq_self_iff]
  simp [schedule, hid]

/-! ## Running the timers that are due -/

/-- What a round of `process` leaves of a timer. -/
def fire (now : Timeval) (t : Timer κ) : Option (Timer κ) :=
  if t.timeout.micros ≤ now.micros then
    if t.persistent then some { t with timeout := timeradd now t.tv } else none
  else some t

/-- The timers that survive are those that `fire` keeps. -/
theorem survives_iff_fire {now : Timeval} {a : ℕ} :
    m.Survives now a ↔ ((m.heap a).bind (fire now)).isSome := by
  unfold Survives
  cases m.heap a with
  | none => simp
  | some t =>
      simp only [Option.mem_def, Option.some.injEq, exists_eq_left', Option.bind_some, fire]
      by_cases hdue : t.timeout.micros ≤ now.micros
      · have hlt : ¬now.micros < t.timeout.micros := by omega
        by_cases hp : t.persistent = true <;> simp [hdue, hlt, hp]
      · simp [hdue, not_le.mp hdue]

/-- The loop of `process` with the timers `due` in front of the iterator and the timers `later`
behind them. -/
structure Firing (now : Timeval) (due later : List ℕ) (m : TimerManager κ) : Prop where
  live : ∀ a, (m.heap a).isSome ↔ a ∈ due ∨ a ∈ later
  sorted : OrderedSet.Sorted m.deadline (due ++ later)
  isDue : ∀ a ∈ due, m.deadline a ≤ now.micros
  isLater : ∀ a ∈ later, now.micros < m.deadline a
  delay : ∀ a, ∀ t ∈ m.heap a, t.tv.Normal ∧ 0 < t.tv.micros
  normal : ∀ a, ∀ t ∈ m.heap a, t.timeout.Normal
  apart : ∀ a b, m.Survives now a → m.Survives now b →
    m.nextDeadline now a = m.nextDeadline now b → a = b
  entries : ∀ a, ¬m.Survives now a → ∀ t ∈ m.heap a, ∀ b, m.Survives now b →
    m.idtimer[t.id]? ≠ some b

/-- What `process` does to a manager. -/
structure Fired (now : Timeval) (m m' : TimerManager κ) : Prop where
  heap : ∀ a, m'.heap a = (m.heap a).bind (fire now)
  sorted : OrderedSet.Sorted m'.deadline m'.timers
  timers : ∀ a, a ∈ m'.timers ↔ m.Survives now a
  idtimer_sub : ∀ (i : ℤ) (a : ℕ), m'.idtimer[i]? = some a → m.idtimer[i]? = some a
  idtimer_keep : ∀ (i : ℤ) (a : ℕ), m.Survives now a → m.idtimer[i]? = some a →
    m'.idtimer[i]? = some a
  next : m'.next = m.next
  maxid : m'.maxid = m.maxid

section Loop

variable {now : Timeval} {due later : List ℕ}

/-- The deadline of a timer that is there. -/
theorem deadline_eq {a : ℕ} {t : Timer κ} (ht : m.heap a = some t) :
    m.deadline a = t.timeout.micros := by
  simp [deadline, timeout, ht]

/-- The timer at the head stands nowhere else. -/
theorem Firing.ne_head {a : ℕ} (h : Firing now (a :: due) later m) : ∀ b ∈ due ++ later, b ≠ a := by
  rintro b hb rfl
  exact absurd ((List.pairwise_cons.mp h.sorted).1 b hb) (lt_irrefl _)

/-- It is due. -/
theorem Firing.due_head {a : ℕ} {t : Timer κ} (h : Firing now (a :: due) later m)
    (ht : m.heap a = some t) : t.timeout.micros ≤ now.micros :=
  deadline_eq ht ▸ h.isDue a List.mem_cons_self

/-- The loop stops in front of a timer that is not due. -/
theorem processLoop_stop (hnow : now.Normal) (hnormal : ∀ a, ∀ t ∈ m.heap a, t.timeout.Normal)
    (fuel : ℕ) (passed : List ℕ) {rest : List ℕ}
    (hrest : ∀ a ∈ rest.head?, (m.heap a).isSome ∧ now.micros < m.deadline a) :
    processLoop now fuel passed rest m = .ok ([], { m with timers := passed ++ rest }) := by
  cases fuel with
  | zero => rfl
  | succ fuel =>
      cases rest with
      | nil => simp [processLoop]
      | cons a rest =>
          obtain ⟨hsome, hlt⟩ := hrest a rfl
          obtain ⟨t, ht⟩ := Option.isSome_iff_exists.mp hsome
          rw [deadline_eq ht] at hlt
          refine processLoop_of_not_due ht ?_ _
          rw [Timer.due_iff, Bool.not_eq_false]
          exact (timercmp_iff hnow (hnormal a t ht)).mpr hlt

/-- When no timer is due any more, the set is what the schedule says. -/
theorem Firing.stop (h : Firing now [] later m) : Fired now m { m with timers := later } := by
  have hlater : ∀ a, ∀ t ∈ m.heap a, ¬t.timeout.micros ≤ now.micros := by
    intro a t ht
    have ha : a ∈ later := ((h.live a).mp (Option.isSome_iff_exists.mpr ⟨t, ht⟩)).resolve_left (by simp)
    have := h.isLater a ha
    rw [deadline_eq ht] at this
    omega
  have hfire : ∀ a, (m.heap a).bind (fire now) = m.heap a := by
    intro a
    cases ht : m.heap a with
    | none => rfl
    | some t => simp [fire, hlater a t ht]
  constructor
  case heap => exact fun a => (hfire a).symm
  case sorted => exact h.sorted
  case timers =>
    intro a
    rw [survives_iff_fire, hfire, h.live]
    simp
  case idtimer_sub => exact fun _ _ hi => hi
  case idtimer_keep => exact fun _ _ _ hi => hi
  case next => rfl
  case maxid => rfl

/-- A persistent timer is put back with its next deadline. -/
def rearmed (m : TimerManager κ) (now : Timeval) (a : ℕ) (t : Timer κ) : TimerManager κ :=
  m.store a { t with timeout := timeradd now t.tv }

section Rearmed

variable {a : ℕ} {t : Timer κ}

/-- The timers when a persistent one is armed again. -/
theorem heap_rearmed (b : ℕ) : (m.rearmed now a t).heap b =
    if b = a then some { t with timeout := timeradd now t.tv } else m.heap b := rfl

/-- The deadlines when a persistent timer is armed again. -/
theorem deadline_rearmed (b : ℕ) : (m.rearmed now a t).deadline b =
    if b = a then now.micros + t.tv.micros else m.deadline b := by
  rw [rearmed, deadline_store, micros_timeradd]

/-- Putting a timer back is all that is left to do to it. -/
theorem fire_rearmed (ht : m.heap a = some t) (hdue : t.timeout.micros ≤ now.micros)
    (hp : t.persistent = true) (hpos : 0 < t.tv.micros) (b : ℕ) :
    ((m.rearmed now a t).heap b).bind (fire now) = (m.heap b).bind (fire now) := by
  rw [heap_rearmed]
  by_cases hb : b = a
  · have hnext : ¬now.micros + t.tv.micros ≤ now.micros := by omega
    simp [hb, ht, fire, hdue, hp, micros_timeradd, hnext]
  · rw [if_neg hb]

/-- Arming a due timer again makes no difference to the deadlines behind the call. -/
theorem nextDeadline_rearmed (ht : m.heap a = some t) (hdue : t.timeout.micros ≤ now.micros)
    (hpos : 0 < t.tv.micros) (b : ℕ) :
    (m.rearmed now a t).nextDeadline now b = m.nextDeadline now b := by
  unfold nextDeadline
  rw [heap_rearmed]
  by_cases hb : b = a
  · have hnext : ¬now.micros + t.tv.micros ≤ now.micros := by omega
    simp [hb, ht, hdue, micros_timeradd, hnext]
  · rw [if_neg hb]

/-- Arming a timer again makes no difference to which timers stay. -/
theorem survives_rearmed (ht : m.heap a = some t) (hdue : t.timeout.micros ≤ now.micros)
    (hp : t.persistent = true) (hpos : 0 < t.tv.micros) (b : ℕ) :
    (m.rearmed now a t).Survives now b ↔ m.Survives now b := by
  rw [survives_iff_fire, survives_iff_fire, fire_rearmed ht hdue hp hpos]

/-- The new deadline is well formed, as all the others are. -/
theorem Firing.normal_rearmed (hnow : now.Normal) (h : Firing now due later m)
    (ht : m.heap a = some t) : ∀ b, ∀ t' ∈ (m.rearmed now a t).heap b, t'.timeout.Normal := by
  intro b t' ht'
  rw [heap_rearmed] at ht'
  split at ht'
  · obtain rfl := Option.some.inj ht'
    exact hnow.timeradd (h.delay a t ht).1
  · exact h.normal b t' ht'

/-- No timer that is not due has the new deadline. -/
theorem Firing.apart_rearmed (h : Firing now (a :: due) later m) (ht : m.heap a = some t)
    (hp : t.persistent = true) :
    ∀ b ∈ later, (m.rearmed now a t).deadline b ≠ (m.rearmed now a t).deadline a := by
  intro b hb
  have hne := h.ne_head b (List.mem_append_right due hb)
  have hblater := h.isLater b hb
  obtain ⟨t', ht'⟩ := Option.isSome_iff_exists.mp ((h.live b).mpr (.inr hb))
  rw [deadline_rearmed, if_neg hne, deadline_rearmed, if_pos rfl]
  rw [deadline_eq ht'] at hblater ⊢
  intro heq
  refine hne (h.apart b a ⟨t', ht', .inr hblater⟩ ⟨t, ht, .inl hp⟩ ?_)
  simp only [nextDeadline, ht, ht', Option.elim_some, if_pos (h.due_head ht),
    if_neg (not_le.mpr hblater)]
  exact heq

/-- The timer that is put back goes behind all that are due. -/
theorem Firing.sorted_rearmed (hnow : now.Normal) (h : Firing now (a :: due) later m)
    (ht : m.heap a = some t) (hp : t.persistent = true) :
    OrderedSet.Sorted (m.rearmed now a t).deadline
      (due ++ OrderedSet.insertBy (m.rearmed now a t).before a later) := by
  have hother : ∀ b ∈ due ++ later, (m.rearmed now a t).deadline b = m.deadline b :=
    fun b hb => by rw [deadline_rearmed, if_neg (h.ne_head b hb)]
  have hcompares := compares (h.normal_rearmed hnow ht) a
  have hnew := h.apart_rearmed ht hp
  have hsorted : OrderedSet.Sorted (m.rearmed now a t).deadline (due ++ later) := by
    refine List.Pairwise.imp_of_mem (fun {b c} hb hc hlt => ?_) (List.pairwise_cons.mp h.sorted).2
    rw [hother b hb, hother c hc]
    exact hlt
  obtain ⟨hd, hl, hdl⟩ := List.pairwise_append.mp hsorted
  refine List.pairwise_append.mpr
    ⟨hd, OrderedSet.Sorted.insertBy hl (hcompares later) hnew, fun b hb c hc => ?_⟩
  rcases (OrderedSet.mem_insertBy (hcompares later) hnew c).mp hc with rfl | hc
  · have hle := h.isDue b (List.mem_cons_of_mem _ hb)
    have hpos := (h.delay c t ht).2
    rw [hother b (List.mem_append_left later hb), deadline_rearmed, if_pos rfl]
    omega
  · exact hdl b hb c hc

/-- **One round with a persistent timer.** -/
theorem Firing.rearmed (hnow : now.Normal) (h : Firing now (a :: due) later m)
    (ht : m.heap a = some t) (hp : t.persistent = true) :
    OrderedSet.insertBy (m.rearmed now a t).before a (due ++ later) =
        due ++ OrderedSet.insertBy (m.rearmed now a t).before a later ∧
      Firing now due (OrderedSet.insertBy (m.rearmed now a t).before a later)
        (m.rearmed now a t) := by
  obtain ⟨htv, hpos⟩ := h.delay a t ht
  have hdue := h.due_head ht
  have hself : (m.rearmed now a t).deadline a = now.micros + t.tv.micros := by
    rw [deadline_rearmed, if_pos rfl]
  have hother : ∀ b ∈ due ++ later, (m.rearmed now a t).deadline b = m.deadline b :=
    fun b hb => by rw [deadline_rearmed, if_neg (h.ne_head b hb)]
  have hcompares := compares (h.normal_rearmed hnow ht) a
  have hsurvives := survives_rearmed ht hdue hp hpos
  have hmem := OrderedSet.mem_insertBy (hcompares later) (h.apart_rearmed ht hp)
  refine ⟨OrderedSet.insertBy_append (hcompares due) fun b hb => ?_, ?_⟩
  · have := h.isDue b (by simp [hb])
    rw [hself, hother b (by simp [hb])]
    omega
  constructor
  case live =>
    intro b
    rw [heap_rearmed, hmem]
    have := h.live b
    by_cases hb : b = a
    · simp [hb]
    · simpa [hb] using this
  case sorted => exact h.sorted_rearmed hnow ht hp
  case isDue =>
    intro b hb
    rw [hother b (by simp [hb])]
    exact h.isDue b (by simp [hb])
  case isLater =>
    intro b hb
    rcases (hmem b).mp hb with rfl | hb
    · rw [hself]
      omega
    · rw [hother b (by simp [hb])]
      exact h.isLater b hb
  case delay =>
    intro b t' ht'
    rw [heap_rearmed] at ht'
    split at ht'
    · obtain rfl := Option.some.inj ht'
      exact ⟨htv, hpos⟩
    · exact h.delay b t' ht'
  case normal => exact h.normal_rearmed hnow ht
  case apart =>
    intro b c hb hc heq
    rw [nextDeadline_rearmed ht hdue hpos, nextDeadline_rearmed ht hdue hpos] at heq
    exact h.apart b c ((hsurvives b).mp hb) ((hsurvives c).mp hc) heq
  case entries =>
    intro b hb t' ht' c hc
    have hb' : ¬m.Survives now b := fun hs => hb ((hsurvives b).mpr hs)
    have hba : b ≠ a := fun e => hb' (e ▸ ⟨t, ht, .inl hp⟩)
    rw [heap_rearmed, if_neg hba] at ht'
    exact h.entries b hb' t' ht' c ((hsurvives c).mp hc)

/-- What is left to do after such a round. -/
theorem Fired.of_rearmed {m' : TimerManager κ} (ht : m.heap a = some t)
    (hdue : t.timeout.micros ≤ now.micros) (hp : t.persistent = true) (hpos : 0 < t.tv.micros)
    (h : Fired now (m.rearmed now a t) m') : Fired now m m' := by
  have hfire := fire_rearmed ht hdue hp hpos
  have hsurvives := survives_rearmed ht hdue hp hpos
  exact {
    heap := fun b => (h.heap b).trans (hfire b)
    sorted := h.sorted
    timers := fun b => (h.timers b).trans (hsurvives b)
    idtimer_sub := h.idtimer_sub
    idtimer_keep := fun i b hb => h.idtimer_keep i b ((hsurvives b).mpr hb)
    next := h.next
    maxid := h.maxid }

end Rearmed

/-- A timer that is not persistent is deleted, with the entry of the id it holds. -/
def finished (m : TimerManager κ) (a : ℕ) (t : Timer κ) : TimerManager κ :=
  free { m with idtimer := m.idtimer.erase t.id } a

section Finished

variable {a : ℕ} {t : Timer κ}

/-- The timers when one has finished. -/
theorem heap_finished (b : ℕ) :
    (m.finished a t).heap b = if b = a then none else m.heap b := rfl

/-- The ids when a timer has finished: the entry of its member `id` goes. -/
theorem getElem?_finished (i : ℤ) :
    (m.finished a t).idtimer[i]? = if t.id = i then none else m.idtimer[i]? := by
  simp [finished, free, Std.ExtTreeMap.getElem?_erase]

/-- Deleting a timer is all that is left to do to it. -/
theorem fire_finished (ht : m.heap a = some t) (hdue : t.timeout.micros ≤ now.micros)
    (hp : t.persistent = false) (b : ℕ) :
    ((m.finished a t).heap b).bind (fire now) = (m.heap b).bind (fire now) := by
  rw [heap_finished]
  by_cases hb : b = a
  · simp [hb, ht, fire, hdue, hp]
  · rw [if_neg hb]

/-- It makes no difference to which timers stay. -/
theorem survives_finished (ht : m.heap a = some t) (hdue : t.timeout.micros ≤ now.micros)
    (hp : t.persistent = false) (b : ℕ) :
    (m.finished a t).Survives now b ↔ m.Survives now b := by
  rw [survives_iff_fire, survives_iff_fire, fire_finished ht hdue hp]

/-- **One round with a timer that is not persistent.** -/
theorem Firing.finished (h : Firing now (a :: due) later m) (ht : m.heap a = some t)
    (hp : t.persistent = false) : Firing now due later (m.finished a t) := by
  have hne := h.ne_head
  have hother : ∀ b ∈ due ++ later, (m.finished a t).deadline b = m.deadline b :=
    fun b hb => deadline_free (hne b hb)
  have hheap : ∀ b, ∀ t' ∈ (m.finished a t).heap b, b ≠ a ∧ t' ∈ m.heap b := by
    intro b t' ht'
    rw [heap_finished] at ht'
    split at ht'
    · cases ht'
    · next hb => exact ⟨hb, ht'⟩
  have hsurvives := survives_finished ht (h.due_head ht) hp
  constructor
  case live =>
    intro b
    rw [heap_finished]
    have := h.live b
    by_cases hb : b = a
    · have hd : a ∉ due := fun hm => hne a (by simp [hm]) rfl
      have hl : a ∉ later := fun hm => hne a (by simp [hm]) rfl
      simp [hb, hd, hl]
    · simpa [hb] using this
  case sorted =>
    refine List.Pairwise.imp_of_mem (fun {b c} hb hc hlt => ?_) (List.pairwise_cons.mp h.sorted).2
    rw [hother b hb, hother c hc]
    exact hlt
  case isDue =>
    intro b hb
    rw [hother b (by simp [hb])]
    exact h.isDue b (by simp [hb])
  case isLater =>
    intro b hb
    rw [hother b (by simp [hb])]
    exact h.isLater b hb
  case delay => exact fun b t' ht' => h.delay b t' (hheap b t' ht').2
  case normal => exact fun b t' ht' => h.normal b t' (hheap b t' ht').2
  case apart =>
    have hnext : ∀ b, (m.finished a t).Survives now b →
        (m.finished a t).nextDeadline now b = m.nextDeadline now b := by
      rintro b ⟨t', ht', -⟩
      have hb := (hheap b t' ht').1
      simp [nextDeadline, heap_finished, hb]
    intro b c hb hc heq
    rw [hnext b hb, hnext c hc] at heq
    exact h.apart b c ((hsurvives b).mp hb) ((hsurvives c).mp hc) heq
  case entries =>
    intro b hb t' ht' c hc
    have := h.entries b (fun hs => hb ((hsurvives b).mpr hs)) t' (hheap b t' ht').2 c
      ((hsurvives c).mp hc)
    rw [getElem?_finished]
    split
    · simp
    · exact this

/-- What is left to do after such a round: only the entry of a timer that goes was erased. -/
theorem Firing.fired_of_finished {m' : TimerManager κ} (h : Firing now (a :: due) later m)
    (ht : m.heap a = some t) (hp : t.persistent = false)
    (hm' : Fired now (m.finished a t) m') : Fired now m m' := by
  have hdue := h.due_head ht
  have hfire := fire_finished ht hdue hp
  have hsurvives := survives_finished ht hdue hp
  have hgoes : ¬m.Survives now a := by
    rw [survives_iff_fire]
    simp [ht, fire, hdue, hp]
  constructor
  case heap => exact fun b => (hm'.heap b).trans (hfire b)
  case sorted => exact hm'.sorted
  case timers => exact fun b => (hm'.timers b).trans (hsurvives b)
  case idtimer_sub =>
    intro i b hi
    have := hm'.idtimer_sub i b hi
    rw [getElem?_finished] at this
    split at this
    · cases this
    · exact this
  case idtimer_keep =>
    intro i b hb hi
    apply hm'.idtimer_keep i b ((hsurvives b).mpr hb)
    have hid : t.id ≠ i := by
      rintro rfl
      exact h.entries a hgoes t ht b hb hi
    rw [getElem?_finished, if_neg hid, hi]
  case next => exact hm'.next
  case maxid => exact hm'.maxid

end Finished

/-- The iterator cuts the set in two. -/
theorem iterator_append (rest set : List ℕ) : (iterator rest set).1 ++ (iterator rest set).2 = set := by
  cases rest with
  | nil => simp [iterator]
  | cons b rest => simp [iterator, List.takeWhile_append_dropWhile]

/-- **The loop of `process`** runs the timers that are due, in the order of the set. -/
theorem Firing.processLoop (hnow : now.Normal) (h : Firing now due later m) {fuel : ℕ}
    (hfuel : due.length ≤ fuel) :
    ∃ m', processLoop now fuel [] (due ++ later) m =
        .ok (due.filterMap fun a => (m.heap a).map Timer.callback, m') ∧ Fired now m m' := by
  induction due generalizing later m fuel with
  | nil =>
      refine ⟨{ m with timers := later }, ?_, h.stop⟩
      exact processLoop_stop hnow h.normal fuel [] fun a ha => by
        have hmem := List.mem_of_mem_head? ha
        exact ⟨(h.live a).mpr (.inr hmem), h.isLater a hmem⟩
  | cons a due ih =>
      obtain ⟨fuel, rfl⟩ : ∃ n, fuel = n + 1 := ⟨fuel - 1, by simp at hfuel; omega⟩
      obtain ⟨t, ht⟩ := Option.isSome_iff_exists.mp ((h.live a).mpr (.inl (by simp)))
      have hdue := h.due_head ht
      have hd : t.Due now := by
        rw [Timer.due_iff, Bool.eq_false_iff, Ne, timercmp_iff hnow (h.normal a t ht)]
        omega
      have hlen : due.length ≤ fuel := by simpa using hfuel
      have hne : ∀ b ∈ due, b ≠ a := fun b hb => h.ne_head b (List.mem_append_left later hb)
      rw [List.cons_append, List.filterMap_cons_some (by rw [ht]; rfl)]
      cases hp : t.persistent with
      | true =>
          obtain ⟨hinsert, hfiring⟩ := h.rearmed hnow ht hp
          have hcallbacks : (due.filterMap fun b => ((m.rearmed now a t).heap b).map Timer.callback) =
              due.filterMap fun b => (m.heap b).map Timer.callback :=
            List.filterMap_congr fun b hb => by rw [heap_rearmed, if_neg (hne b hb)]
          have hleft : ∀ {m'}, Fired now (m.rearmed now a t) m' → Fired now m m' :=
            Fired.of_rearmed ht hdue hp (h.delay a t ht).2
          cases due with
          | nil =>
              -- the iterator stands on a timer that is not due, or at the end
              refine ⟨_, ?_, hleft hfiring.stop⟩
              refine processLoop_of_persistent ht hd hp fuel Prod.mk.eta.symm ?_
              have hset : m.store a (t.rearmed now) = m.rearmed now a t := rfl
              rw [hset, List.nil_append, List.nil_append, processLoop_stop hnow hfiring.normal,
                iterator_append]
              · rfl
              · intro b hb
                have hb' : b ∈ (iterator later
                    (OrderedSet.insertBy (m.rearmed now a t).before a later)).2 :=
                  List.mem_of_mem_head? hb
                have hmem : b ∈ OrderedSet.insertBy (m.rearmed now a t).before a later := by
                  rw [← iterator_append later (OrderedSet.insertBy _ a later)]
                  exact List.mem_append_right _ hb'
                exact ⟨(hfiring.live b).mpr (.inr hmem), hfiring.isLater b hmem⟩
          | cons b due =>
              have hb : b ≠ a := hne b (by simp)
              obtain ⟨m', hm', hfired⟩ := ih hfiring hlen
              refine ⟨m', ?_, hleft hfired⟩
              rw [hcallbacks] at hm'
              refine processLoop_of_persistent ht hd hp fuel ?_ hm'
              have hset : m.store a (t.rearmed now) = m.rearmed now a t := rfl
              rw [hset, List.nil_append, hinsert]
              simp [iterator]
      | false =>
          have hcallbacks : (due.filterMap fun b => ((m.finished a t).heap b).map Timer.callback) =
              due.filterMap fun b => (m.heap b).map Timer.callback :=
            List.filterMap_congr fun b hb => by rw [heap_finished, if_neg (hne b hb)]
          obtain ⟨m', hm', hfired⟩ := ih (h.finished ht hp) hlen
          rw [hcallbacks] at hm'
          exact ⟨m', processLoop_of_finishes ht ⟨hd, hp⟩ fuel hm', h.fired_of_finished ht hp hfired⟩

end Loop

/-- **`process` keeps the schedule.** -/
theorem Sound.process (h : m.Sound) {now : Timeval} (hnow : now.Normal)
    (hclear : m.Clear (.process now)) :
    ∃ (due : List ℕ) (m' : TimerManager κ),
      m.process now = .ok (due.filterMap fun a => (m.heap a).map Timer.callback, m') ∧
        Fired now m m' ∧ due.Sublist m.timers ∧
          ∀ a ∈ m.timers, a ∈ due ↔ m.deadline a ≤ now.micros := by
  obtain ⟨hapart, hentries⟩ := hclear
  let p : ℕ → Bool := fun a => decide (m.deadline a ≤ now.micros)
  have hsplit : m.timers.takeWhile p ++ m.timers.dropWhile p = m.timers :=
    List.takeWhile_append_dropWhile
  have hlater : ∀ a ∈ m.timers.dropWhile p, now.micros < m.deadline a :=
    h.sorted.lt_of_mem_dropWhile now.micros
  have hdue : ∀ a ∈ m.timers.takeWhile p, m.deadline a ≤ now.micros :=
    fun a ha => of_decide_eq_true (List.mem_takeWhile_imp (p := p) ha)
  have hmem : ∀ a, m.Survives now a → a ∈ m.timers := by
    rintro a ⟨t, ht, -⟩
    exact (h.live a).mpr (Option.isSome_iff_exists.mpr ⟨t, ht⟩)
  have hfiring : Firing now (m.timers.takeWhile p) (m.timers.dropWhile p) m := {
    live := fun a => by rw [← List.mem_append, hsplit, h.live]
    sorted := by rw [hsplit]; exact h.sorted
    isDue := hdue
    isLater := hlater
    delay := h.delay
    normal := h.normal
    apart := fun a b ha hb => hapart a (hmem a ha) b (hmem b hb) ha hb
    entries := fun a ha t ht b hb =>
      hentries a ((h.live a).mpr (Option.isSome_iff_exists.mpr ⟨t, ht⟩)) ha t ht b (hmem b hb) hb }
  have hlen : (m.timers.takeWhile p).length ≤ 2 * m.timers.length := by
    have := (List.takeWhile_prefix (l := m.timers) p).length_le
    omega
  obtain ⟨m', hm', hfired⟩ := hfiring.processLoop hnow hlen
  rw [hsplit] at hm'
  refine ⟨_, m', hm', hfired, (List.takeWhile_prefix p).sublist, fun a ha => ⟨hdue a, fun hle => ?_⟩⟩
  rw [← hsplit] at ha
  refine (List.mem_append.mp ha).resolve_right fun hl => ?_
  have := hlater a hl
  omega

/-- `process` keeps a sound manager sound. -/
theorem Fired.sound {now : Timeval} {m' : TimerManager κ} (hnow : now.Normal) (h : m.Sound)
    (hf : Fired now m m') : m'.Sound := by
  have hheap : ∀ a, ∀ t' ∈ m'.heap a, ∃ t ∈ m.heap a,
      t'.tv = t.tv ∧ (t'.timeout = t.timeout ∨ t'.timeout = timeradd now t.tv) := by
    intro a t' ht'
    rw [hf.heap] at ht'
    obtain ⟨t, ht, hfire⟩ := Option.bind_eq_some_iff.mp ht'
    refine ⟨t, ht, ?_⟩
    unfold fire at hfire
    split at hfire
    · split at hfire
      · obtain rfl := Option.some.inj hfire
        exact ⟨rfl, .inr rfl⟩
      · cases hfire
    · obtain rfl := Option.some.inj hfire
      exact ⟨rfl, .inl rfl⟩
  have hsub : ∀ a, m.Survives now a → a ∈ m.timers := by
    rintro a ⟨t, ht, -⟩
    exact (h.live a).mpr (Option.isSome_iff_exists.mpr ⟨t, ht⟩)
  constructor
  case live =>
    intro a
    rw [hf.timers, survives_iff_fire, hf.heap]
  case named =>
    intro a ha
    have hs := (hf.timers a).mp ha
    obtain ⟨i, hi⟩ := h.named a (hsub a hs)
    exact ⟨i, hf.idtimer_keep i a hs hi⟩
  case name_unique =>
    intro a ha i j hi hj
    exact h.name_unique a (hsub a ((hf.timers a).mp ha)) i j (hf.idtimer_sub i a hi)
      (hf.idtimer_sub j a hj)
  case sorted => exact hf.sorted
  case delay =>
    intro a t' ht'
    obtain ⟨t, ht, htv, -⟩ := hheap a t' ht'
    rw [htv]
    exact h.delay a t ht
  case normal =>
    intro a t' ht'
    obtain ⟨t, ht, -, hto | hto⟩ := hheap a t' ht' <;> rw [hto]
    · exact h.normal a t ht
    · exact hnow.timeradd (h.delay a t ht).1
  case heap_lt =>
    intro a ha
    obtain ⟨t', ht'⟩ := Option.isSome_iff_exists.mp ha
    obtain ⟨t, ht, -⟩ := hheap a t' ht'
    rw [hf.next]
    exact h.heap_lt a (Option.isSome_iff_exists.mpr ⟨t, ht⟩)
  case idtimer_lt =>
    intro i a hi
    rw [hf.next]
    exact h.idtimer_lt i a (hf.idtimer_sub i a hi)
  case ids =>
    rw [hf.maxid]
    exact ⟨h.ids.1, fun i a hi => h.ids.2 i a (hf.idtimer_sub i a hi)⟩

/-- `process` does to the schedule what it should. -/
theorem Fired.schedule {now : Timeval} {m' : TimerManager κ} (hf : Fired now m m') :
    m'.schedule = m.schedule.after now.micros := by
  have hfire : ∀ t : Timer κ, (fire now t).map scheduled =
      if t.timeout.micros ≤ now.micros then Schedule.rearm now.micros (scheduled t)
      else some (scheduled t) := by
    intro t
    unfold fire Schedule.rearm scheduled
    split
    · split <;> simp_all [micros_timeradd]
    · rfl
  have hstand : ∀ a, (m'.heap a).map scheduled = ((m.heap a).map scheduled).bind fun e =>
      if e.deadline ≤ now.micros then Schedule.rearm now.micros e else some e := by
    intro a
    rw [hf.heap]
    cases ht : m.heap a with
    | none => rfl
    | some t => exact hfire t
  funext i
  simp only [TimerManager.schedule, Schedule.after]
  cases ha : m.idtimer[i]? with
  | none =>
      have hnone : m'.idtimer[i]? = none := by
        cases ha' : m'.idtimer[i]? with
        | none => rfl
        | some a => rw [hf.idtimer_sub i a ha'] at ha; cases ha
      rw [hnone]
      rfl
  | some a =>
      simp only [Option.bind_some, ← hstand]
      cases ha' : m'.idtimer[i]? with
      | some b =>
          obtain rfl : a = b := Option.some.inj (ha.symm.trans (hf.idtimer_sub i b ha'))
          rfl
      | none =>
          -- only a timer that does not stay has lost its entry
          have hgoes : ¬m.Survives now a := fun hs => by
            rw [hf.idtimer_keep i a hs ha] at ha'
            cases ha'
          rw [survives_iff_fire, ← hf.heap, Option.not_isSome_iff_eq_none] at hgoes
          rw [hgoes]
          rfl

/-- The timers that ran are those the schedule says are due. -/
theorem Sound.fires (h : m.Sound) {now : Timeval} {due : List ℕ} (hsub : due.Sublist m.timers)
    (hdue : ∀ a ∈ m.timers, a ∈ due ↔ m.deadline a ≤ now.micros) :
    ∃ fired, m.schedule.Fires now.micros fired ∧
      (due.filterMap fun a => (m.heap a).map Timer.callback) =
        fired.filterMap fun id => (m.schedule id).map Scheduled.callback := by
  choose! name hname using h.named
  have hentry : ∀ a ∈ due, m.schedule (name a) = (m.heap a).map scheduled := by
    intro a ha
    simp [TimerManager.schedule, hname a (hsub.subset ha)]
  have hdeadline : ∀ a, ∀ e ∈ (m.heap a).map scheduled, e.deadline = m.deadline a := by
    intro a e he
    obtain ⟨t, ht, rfl⟩ := Option.map_eq_some_iff.mp he
    exact (deadline_eq ht).symm
  refine ⟨due.map name, ⟨?_, fun id => ?_, ?_⟩, ?_⟩
  · refine List.Nodup.map_on (fun a ha b hb heq => ?_) (h.sorted.nodup.sublist hsub)
    have hb' := hname b (hsub.subset hb)
    rw [← heq, hname a (hsub.subset ha)] at hb'
    exact Option.some.inj hb'
  · constructor
    · intro hid
      obtain ⟨a, ha, rfl⟩ := List.mem_map.mp hid
      have hmem := hsub.subset ha
      obtain ⟨t, ht⟩ := Option.isSome_iff_exists.mp ((h.live a).mp hmem)
      refine ⟨scheduled t, by rw [hentry a ha, ht]; rfl, ?_⟩
      rw [hdeadline a (scheduled t) (by rw [ht]; rfl)]
      exact (hdue a hmem).mp ha
    · rintro ⟨e, he, hle⟩
      obtain ⟨a, ha, he'⟩ := Option.bind_eq_some_iff.mp he
      obtain ⟨t, ht, -⟩ := Option.map_eq_some_iff.mp he'
      have hmem : a ∈ m.timers := (h.live a).mpr (by simp [ht])
      rw [hdeadline a e he'] at hle
      rw [h.name_unique a hmem id (name a) ha (hname a hmem)]
      exact List.mem_map_of_mem ((hdue a hmem).mpr hle)
  · rw [List.pairwise_map]
    refine List.Pairwise.imp_of_mem (fun {a b} ha hb hlt e he e' he' => ?_) (h.sorted.sublist hsub)
    rw [hentry a ha] at he
    rw [hentry b hb] at he'
    rw [hdeadline a e he, hdeadline b e' he']
    exact hlt.le
  · rw [List.filterMap_map]
    refine List.filterMap_congr fun a ha => ?_
    rw [Function.comp_apply, hentry a ha, Option.map_map]
    rfl

/-! ## The main result -/

/-- **One call keeps the schedule.** -/
theorem Sound.exec (h : m.Sound) {call : TimerCall κ} (hadm : Admissible call)
    (hclear : m.Clear call) :
    ∃ reply m', m.exec call = .ok (reply, m') ∧ m'.Sound ∧
      Schedule.Step m.schedule (call, reply) m'.schedule := by
  cases call with
  | setTimer now sec usec persistent callback left =>
      obtain ⟨hnow, hpos⟩ := hadm
      obtain ⟨hnormal, hnew, hids⟩ := hclear
      obtain ⟨id, maxid, hget, hid, hid0, hidmax, hmax⟩ := h.getId hids
      let t : Timer κ := ⟨left, ⟨sec, usec⟩, timeradd now ⟨sec, usec⟩, persistent, callback⟩
      have ht : t.timeout.micros = now.micros + (⟨sec, usec⟩ : Timeval).micros :=
        micros_timeradd _ _
      refine ⟨.id id, m.armed id maxid t, ?_, ?_, ?_⟩
      · simp only [TimerManager.exec, TimerManager.setTimer, hget, bind, Except.bind]
        rfl
      · refine h.armed hid hid0 hidmax hmax ⟨hnormal, hpos⟩ (hnow.timeradd hnormal) fun a ha => ?_
        rw [ht]
        exact hnew a ha
      · have hnone : m.schedule id = none := by simp [TimerManager.schedule, hid]
        rw [h.schedule_armed, scheduled, ht]
        exact .setTimer hnone
  | setPersistent id =>
      cases hid : m.idtimer[id]? with
      | none =>
          refine ⟨.done, m, ?_, h, ?_⟩
          · simp [TimerManager.exec, TimerManager.setPersistent, hid, bind, Except.bind]
          · have hstep : Schedule.Step m.schedule (.setPersistent id, .done) _ := .setPersistent
            have hnone : m.schedule id = none := by simp [TimerManager.schedule, hid]
            rwa [hnone, Option.map_none, update_schedule_none hid] at hstep
      | some a =>
          obtain ⟨t, ht⟩ := Option.isSome_iff_exists.mp (hclear a hid)
          refine ⟨.done, m.store a { t with persistent := true }, ?_, h.persist ht, ?_⟩
          · simp [TimerManager.exec, TimerManager.setPersistent, hid, deref, ht, bind, Except.bind]
          · rw [h.schedule_persist hid ht]
            exact .setPersistent
  | remove id =>
      cases hid : m.idtimer[id]? with
      | none =>
          refine ⟨.done, m, ?_, h, ?_⟩
          · simp [TimerManager.exec, TimerManager.remove, hid, bind, Except.bind]
          · have hstep : Schedule.Step m.schedule (.remove id, .done) _ := .remove
            rwa [update_schedule_none hid] at hstep
      | some a =>
          have ha : a ∈ m.timers := (h.live a).mpr (hclear a hid)
          obtain ⟨t, ht⟩ := Option.isSome_iff_exists.mp (hclear a hid)
          refine ⟨.done, m.removed id a, ?_, h.removed hid ha, ?_⟩
          · simp only [TimerManager.exec, TimerManager.remove, hid, deref, ht, bind, Except.bind]
            rfl
          · rw [h.schedule_removed hid ha]
            exact .remove
  | process now =>
      obtain ⟨due, m', hm', hfired, hsub, hdue⟩ := h.process hadm hclear
      obtain ⟨fired, hfires, hran⟩ := h.fires hsub hdue
      refine ⟨.ran (due.filterMap fun a => (m.heap a).map Timer.callback), m', ?_,
        hfired.sound hadm h, ?_⟩
      · simp only [TimerManager.exec, hm', bind, Except.bind]
      · rw [hfired.schedule, hran]
        exact .process hfires

/-- **No timer is lost or duplicated** in a run that stays clear of the defects: what the calls show
is what the schedule says, and the next such call returns. -/
theorem refines_schedule {ls : List (TimerCall κ × TimerReply κ)} {m : TimerManager κ}
    (h : ((system κ).guard Allowed).Run {} ls m) :
    (schedules κ).Run (fun _ => none) ls m.schedule ∧
      ∀ call, Admissible call → m.Clear call → ∃ reply m', m.exec call = .ok (reply, m') := by
  have hstep : ∀ (m : TimerManager κ) (s : Schedule κ) l m', m.Sound ∧ m.schedule = s →
      ((system κ).guard Allowed).step m l m' →
        ∃ s', (schedules κ).step s l s' ∧ m'.Sound ∧ m'.schedule = s' := by
    rintro m s ⟨call, reply⟩ m' ⟨hm, rfl⟩ ⟨⟨hadm, hclear⟩, hexec⟩
    obtain ⟨reply', m'', hexec', hm'', hs⟩ := hm.exec hadm hclear
    obtain ⟨rfl, rfl⟩ := Prod.mk.inj (Except.ok.inj (hexec'.symm.trans hexec))
    exact ⟨m''.schedule, hs, hm'', rfl⟩
  obtain ⟨s, hrun, hm, rfl⟩ := h.simulate hstep (x := fun _ => none) ⟨Sound.start, rfl⟩
  refine ⟨hrun, fun call hadm hclear => ?_⟩
  obtain ⟨reply, m', hexec, -⟩ := hm.exec hadm hclear
  exact ⟨reply, m', hexec⟩

/-- The manager after a call that returns. -/
def afterCall (m : TimerManager κ) (call : TimerCall κ) : TimerManager κ :=
  ((m.exec call).toOption.map Prod.snd).getD m

/-- A call that returns leads to the manager behind it. -/
theorem exec_eq {call : TimerCall κ} {reply : TimerReply κ}
    (h : (m.exec call).toOption.map Prod.fst = some reply) :
    m.exec call = .ok (reply, m.afterCall call) := by
  unfold afterCall
  cases he : m.exec call with
  | error e => simp [he, Except.toOption] at h
  | ok res =>
      obtain ⟨reply', m'⟩ := res
      simp only [he, Except.toOption, Option.map_some, Option.some.injEq] at h
      subst h
      rfl

/-- The manager after a call that is allowed and gives this reply. -/
def tryCall [DecidableEq κ] (m : TimerManager κ) (l : TimerCall κ × TimerReply κ) :
    Option (TimerManager κ) :=
  if m.Allowed l ∧ (m.exec l.1).toOption.map Prod.fst = some l.2 then some (m.afterCall l.1) else none

/-- Such a call is a step of the system. -/
theorem step_of_tryCall [DecidableEq κ] {l : TimerCall κ × TimerReply κ} {m' : TimerManager κ}
    (h : m.tryCall l = some m') : ((system κ).guard Allowed).step m l m' := by
  obtain ⟨⟨hallowed, hreply⟩, h⟩ := Option.ite_none_right_eq_some.mp h
  obtain rfl := Option.some.inj h
  exact ⟨hallowed, exec_eq hreply⟩

/-- Three timers: the first one runs once, the second one is made persistent and runs twice, and the
third one is removed. -/
theorem refines_schedule_removed :
    ∃ s, (schedules ℕ).Run (fun _ => none)
      [(.setTimer ⟨10, 0⟩ 1 0 false 5 0, .id 0), (.setTimer ⟨10, 0⟩ 2 0 false 6 1, .id 1),
        (.setTimer ⟨10, 0⟩ 4 0 false 7 2, .id 2), (.setPersistent 1, .done),
        (.process ⟨11, 0⟩, .ran [5]), (.remove 2, .done), (.process ⟨12, 0⟩, .ran [6]),
        (.process ⟨14, 0⟩, .ran [6])] s := by
  let ls : List (TimerCall ℕ × TimerReply ℕ) :=
    [(.setTimer ⟨10, 0⟩ 1 0 false 5 0, .id 0), (.setTimer ⟨10, 0⟩ 2 0 false 6 1, .id 1),
      (.setTimer ⟨10, 0⟩ 4 0 false 7 2, .id 2), (.setPersistent 1, .done),
      (.process ⟨11, 0⟩, .ran [5]), (.remove 2, .done), (.process ⟨12, 0⟩, .ran [6]),
      (.process ⟨14, 0⟩, .ran [6])]
  have hrun : (ls.foldlM tryCall {}).isSome := by decide +kernel
  obtain ⟨m, hm⟩ := Option.isSome_iff_exists.mp hrun
  have hallowed : ((system ℕ).guard Allowed).Run {} ls m := .of_foldlM (fun _ _ _ => step_of_tryCall) hm
  exact ⟨_, (refines_schedule hallowed).1⟩

/-- **A lost timer.** Of two timers of one deadline only the first is run. -/
theorem not_refines_equalDeadlines :
    ∃ ls, (∃ m : TimerManager ℕ, (system ℕ).Run {} ls m) ∧ (∀ l ∈ ls, Admissible l.1) ∧
      ∀ s, ¬(schedules ℕ).Run (fun _ => none) ls s := by
  let m₁ : TimerManager ℕ := afterCall {} (.setTimer ⟨10, 0⟩ 1 0 false 5 0)
  let m₂ : TimerManager ℕ := m₁.afterCall (.setTimer ⟨10, 0⟩ 1 0 false 6 1)
  refine ⟨[(.setTimer ⟨10, 0⟩ 1 0 false 5 0, .id 0), (.setTimer ⟨10, 0⟩ 1 0 false 6 1, .id 1),
    (.process ⟨11, 0⟩, .ran [5])], ⟨m₂.afterCall (.process ⟨11, 0⟩), ?_⟩, ?_, ?_⟩
  · exact .cons (exec_eq (by decide +kernel))
      (.cons (exec_eq (by decide +kernel)) (.cons (exec_eq (by decide +kernel)) (.nil _)))
  · intro l hl
    simp only [List.mem_cons, List.not_mem_nil, or_false] at hl
    rcases hl with rfl | rfl | rfl
    · exact ⟨by decide, by decide⟩
    · exact ⟨by decide, by decide⟩
    · exact (by decide : Timeval.Normal ⟨11, 0⟩)
  · rintro s (_ | ⟨h₁, _ | ⟨h₂, _ | ⟨h₃, -⟩⟩⟩)
    obtain rfl := Schedule.Step.setTimer_inv h₁
    obtain rfl := Schedule.Step.setTimer_inv h₂
    obtain ⟨fired, hfires, hran⟩ := Schedule.Step.process_inv h₃
    -- the second timer is due, so its callback should have run
    have hdue : (1 : ℤ) ∈ fired := (hfires.due 1).mpr ⟨_, rfl, by decide⟩
    have hmem : (6 : ℕ) ∈ [5] := by
      rw [TimerReply.ran.inj hran]
      exact List.mem_filterMap.mpr ⟨1, hdue, rfl⟩
    exact absurd hmem (by decide)

end TimerManager

end Libio
