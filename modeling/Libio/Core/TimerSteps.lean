import Libio.Core.TimerSchedule

/-! # What the calls of the timer manager do

Each call, inverted: from its return to the manager it leaves. What is said here holds in every run,
with deadlines that coincide and with entries that a finished timer has left behind. In all of them
the set is sorted and its timers are live. -/

namespace Libio

universe u

variable {κ : Type u}

namespace TimerManager

variable {m m' : TimerManager κ} {now : Timeval} {reply : TimerReply κ}

/-- What every run keeps: the set is sorted, its timers are live, addresses and ids are in use from
below. -/
structure Ordered (m : TimerManager κ) : Prop where
  sorted : OrderedSet.Sorted m.key m.timers
  live : ∀ a ∈ m.timers, (m.heap a).isSome
  heap_lt : ∀ a, (m.heap a).isSome → a < m.next
  idtimer_lt : ∀ (id : ℤ) (a : ℕ), m.idtimer[id]? = some a → a < m.next
  maxid : 0 ≤ m.maxid
  ids : ∀ (id : ℤ) (a : ℕ), m.idtimer[id]? = some a → 0 ≤ id ∧ id ≤ m.maxid

/-- The manager without timers is in order. -/
theorem Ordered.start : Ordered ({} : TimerManager κ) where
  sorted := .nil
  live := by simp
  heap_lt := by simp
  idtimer_lt := by simp
  maxid := le_rfl
  ids := by simp

/-- What neither allocates nor makes an entry keeps the rest. -/
theorem Ordered.of_sub (h : m.Ordered) (hsorted : OrderedSet.Sorted m'.key m'.timers)
    (hlive : ∀ a ∈ m'.timers, (m'.heap a).isSome)
    (hheap : ∀ a, (m'.heap a).isSome → (m.heap a).isSome)
    (hid : ∀ (id : ℤ) (a : ℕ), m'.idtimer[id]? = some a → m.idtimer[id]? = some a)
    (hnext : m'.next = m.next) (hmaxid : m'.maxid = m.maxid) : m'.Ordered where
  sorted := hsorted
  live := hlive
  heap_lt a ha := hnext ▸ h.heap_lt a (hheap a ha)
  idtimer_lt id a ha := hnext ▸ h.idtimer_lt id a (hid id a ha)
  maxid := hmaxid ▸ h.maxid
  ids id a ha := hmaxid ▸ h.ids id a (hid id a ha)

/-! ## The calls, inverted -/

/-- The timer that `set_timer` allocates. -/
def fresh (now : Timeval) (sec usec : ℤ) (persistent : Bool) (callback : κ) (left : ℤ) : Timer κ :=
  ⟨left, ⟨sec, usec⟩, timeradd now ⟨sec, usec⟩, persistent, callback⟩

/-- What a call of `set_timer` does. -/
theorem Ordered.setTimer_inv (h : m.Ordered) {sec usec left : ℤ} {persistent : Bool} {callback : κ}
    (hexec : m.exec (.setTimer now sec usec persistent callback left) = .ok (reply, m')) :
    ∃ id maxid, reply = .id id ∧
      m' = m.armed id maxid (fresh now sec usec persistent callback left) ∧
        m.idtimer[id]? = none ∧ 0 ≤ id ∧ id ≤ maxid ∧ m.maxid ≤ maxid := by
  cases hget : m.getId with
  | error e => simp [exec, setTimer, hget, bind, Except.bind] at hexec
  | ok res =>
      obtain ⟨id, m₁⟩ := res
      obtain ⟨maxid, rfl, hfresh⟩ := getId_fresh h.maxid h.ids hget
      simp only [exec, setTimer, hget, bind, Except.bind] at hexec
      obtain ⟨rfl, rfl⟩ := Prod.mk.inj (Except.ok.inj hexec)
      exact ⟨id, maxid, rfl, rfl, hfresh⟩

/-- What a call of `set_persistent` does. -/
theorem setPersistent_inv {id : ℤ} (hexec : m.exec (.setPersistent id) = .ok (reply, m')) :
    reply = .done ∧ ((m.idtimer[id]? = none ∧ m' = m) ∨
      ∃ a t, m.idtimer[id]? = some a ∧ m.heap a = some t ∧
        m' = m.store a { t with persistent := true }) := by
  cases hid : m.idtimer[id]? with
  | none =>
      simp only [exec, setPersistent, hid, bind, Except.bind] at hexec
      obtain ⟨rfl, rfl⟩ := Prod.mk.inj (Except.ok.inj hexec)
      exact ⟨rfl, .inl ⟨rfl, rfl⟩⟩
  | some a =>
      cases ht : m.heap a with
      | none => simp [exec, setPersistent, hid, deref, ht, bind, Except.bind] at hexec
      | some t =>
          simp only [exec, setPersistent, hid, deref, ht, bind, Except.bind] at hexec
          obtain ⟨rfl, rfl⟩ := Prod.mk.inj (Except.ok.inj hexec)
          exact ⟨rfl, .inr ⟨a, t, rfl, ht, rfl⟩⟩

/-- What a call of `remove` does. -/
theorem remove_inv {id : ℤ} (hexec : m.exec (.remove id) = .ok (reply, m')) :
    reply = .done ∧ ((m.idtimer[id]? = none ∧ m' = m) ∨
      ∃ a t, m.idtimer[id]? = some a ∧ m.heap a = some t ∧ m' = m.removed id a) := by
  cases hid : m.idtimer[id]? with
  | none =>
      simp only [exec, remove, hid, bind, Except.bind] at hexec
      obtain ⟨rfl, rfl⟩ := Prod.mk.inj (Except.ok.inj hexec)
      exact ⟨rfl, .inl ⟨rfl, rfl⟩⟩
  | some a =>
      cases ht : m.heap a with
      | none => simp [exec, remove, hid, deref, ht, bind, Except.bind] at hexec
      | some t =>
          simp only [exec, remove, hid, deref, ht, bind, Except.bind] at hexec
          obtain ⟨rfl, rfl⟩ := Prod.mk.inj (Except.ok.inj hexec)
          exact ⟨rfl, .inr ⟨a, t, rfl, ht, rfl⟩⟩

/-- What a call of `process` does. -/
theorem Ordered.process_inv (h : m.Ordered) (hexec : m.exec (.process now) = .ok (reply, m')) :
    ∃ ran, reply = .ran ran ∧ Processed now [] m.timers m m' ran := by
  obtain ⟨ran, m₁, hprocess, hproc⟩ := processed_process now h.sorted h.live
  simp only [exec, hprocess, bind, Except.bind] at hexec
  obtain ⟨rfl, rfl⟩ := Prod.mk.inj (Except.ok.inj hexec)
  exact ⟨ran, rfl, hproc⟩

/-! ## The set keeps its order -/

section Armed

variable {id maxid : ℤ} {t : Timer κ}

/-- The next timer is not in the set. -/
theorem Ordered.not_mem_next (h : m.Ordered) : m.next ∉ m.timers := fun hin =>
  absurd (h.heap_lt _ (h.live _ hin)) (lt_irrefl _)

/-- The keys behind `set_timer`. -/
theorem key_armed (a : ℕ) :
    (m.armed id maxid t).key a = if a = m.next then t.timeout.key else m.key a := by
  have h : (m.armed id maxid t).key a = (m.store m.next t).key a := rfl
  rw [h, key_store]

/-- A timer that is set is the only one that enters the set. -/
theorem mem_of_mem_armed {a : ℕ} (ha : a ∈ (m.armed id maxid t).timers) :
    a = m.next ∨ a ∈ m.timers :=
  OrderedSet.mem_of_insertBy ha

/-- The timers of the set stay, and the new one enters it when its deadline is new. -/
theorem mem_armed_of_mem {a : ℕ} (ha : a ∈ m.timers) : a ∈ (m.armed id maxid t).timers :=
  OrderedSet.mem_insertBy_of_mem ha

/-- A timer with a new deadline enters the set. -/
theorem Ordered.next_mem_armed (h : m.Ordered) (hnew : ∀ a ∈ m.timers, m.timeout a ≠ t.timeout) :
    m.next ∈ (m.armed id maxid t).timers := by
  refine (OrderedSet.mem_insertBy (compares_key m.next _) (fun b hb => ?_) m.next).mpr (.inl rfl)
  have hne : b ≠ m.next := fun he => h.not_mem_next (he ▸ hb)
  rw [key_store, key_store, if_neg hne, if_pos rfl]
  exact fun hk => hnew b hb (Timeval.key_inj.mp hk)

/-- A timer that entered the set has a deadline that was new. -/
theorem Ordered.new_of_next_mem_armed (h : m.Ordered)
    (hin : m.next ∈ (m.armed id maxid t).timers) : ∀ a ∈ m.timers, m.timeout a ≠ t.timeout := by
  intro a ha hsame
  have hkeys : ∀ b ∈ m.timers, (m.armed id maxid t).key b = m.key b := by
    intro b hb
    have hne : b ≠ m.next := fun he => h.not_mem_next (he ▸ hb)
    rw [key_armed, if_neg hne]
  have hsorted : OrderedSet.Sorted (m.armed id maxid t).key m.timers := sorted_of_key h.sorted hkeys
  have hkey : (m.armed id maxid t).key a = (m.armed id maxid t).key m.next := by
    rw [hkeys a ha, key_armed, if_pos rfl, key, hsame]
  -- a place that is taken would have kept it out
  have hsame : (m.armed id maxid t).timers = m.timers :=
    OrderedSet.insertBy_of_key hsorted (compares_key _ _) ⟨a, ha, hkey⟩
  exact h.not_mem_next (hsame ▸ hin)

/-- `set_timer` keeps the order. -/
theorem Ordered.armed (h : m.Ordered) (hid0 : 0 ≤ id) (hidmax : id ≤ maxid)
    (hmax : m.maxid ≤ maxid) : (m.armed id maxid t).Ordered := by
  constructor
  case sorted =>
    refine OrderedSet.Sorted.insertBy_any (sorted_of_key h.sorted fun a ha => ?_) (compares_key _ _)
    have hne : a ≠ m.next := fun he => h.not_mem_next (he ▸ ha)
    exact (key_armed a).trans (if_neg hne)
  case live =>
    intro a ha
    rw [heap_armed]
    by_cases hne : a = m.next
    · rw [if_pos hne]
      rfl
    · rw [if_neg hne]
      exact h.live a ((mem_of_mem_armed ha).resolve_left hne)
  case heap_lt =>
    intro a ha
    rw [heap_armed] at ha
    by_cases hne : a = m.next
    · exact hne ▸ Nat.lt_succ_self _
    · rw [if_neg hne] at ha
      exact Nat.lt_succ_of_lt (h.heap_lt a ha)
  case idtimer_lt =>
    intro i a hi
    rw [getElem?_armed] at hi
    split at hi
    · obtain rfl := Option.some.inj hi
      exact Nat.lt_succ_self _
    · exact Nat.lt_succ_of_lt (h.idtimer_lt i a hi)
  case maxid => exact h.maxid.trans hmax
  case ids =>
    intro i a hi
    rw [getElem?_armed] at hi
    split at hi
    · next heq => exact heq ▸ ⟨hid0, hidmax⟩
    · exact ⟨(h.ids i a hi).1, (h.ids i a hi).2.trans hmax⟩

end Armed

/-- So does `set_persistent`. -/
theorem Ordered.persist (h : m.Ordered) {a : ℕ} {t : Timer κ} (ht : m.heap a = some t) :
    (m.store a { t with persistent := true }).Ordered := by
  have hlive : ∀ b, ((m.store a { t with persistent := true }).heap b).isSome ↔
      (m.heap b).isSome := by
    intro b
    rw [heap_store]
    by_cases hb : b = a
    · rw [if_pos hb, hb, ht]
      exact ⟨fun _ => rfl, fun _ => rfl⟩
    · rw [if_neg hb]
  refine h.of_sub (sorted_of_key h.sorted fun b _ => ?_) (fun b hb => (hlive b).mpr (h.live b hb))
    (fun b hb => (hlive b).mp hb) (fun _ _ hid => hid) rfl rfl
  rw [key_store]
  split
  · next hb => rw [hb, key_eq ht]
  · rfl

/-- The timer that is removed is not in the set any more. -/
theorem Ordered.mem_of_mem_removed (h : m.Ordered) (id : ℤ) {a b : ℕ}
    (hb : b ∈ (m.removed id a).timers) : b ∈ m.timers ∧ b ≠ a := by
  obtain ⟨hmem, hkey⟩ := (OrderedSet.mem_eraseBy h.sorted (compares_key a _) b).mp hb
  exact ⟨hmem, fun he => hkey (he ▸ rfl)⟩

/-- Removing a timer of the set removes no other. -/
theorem Ordered.mem_removed (h : m.Ordered) {id : ℤ} {a : ℕ} (ha : a ∈ m.timers) (b : ℕ) :
    b ∈ (m.removed id a).timers ↔ b ∈ m.timers ∧ b ≠ a := by
  refine (OrderedSet.mem_eraseBy h.sorted (compares_key a _) b).trans ?_
  refine and_congr_right fun hb => not_congr ⟨fun hk => ?_, fun e => by rw [e]⟩
  exact h.sorted.eq_of_key hb ha hk

/-- So does `remove`. -/
theorem Ordered.removed (h : m.Ordered) {id : ℤ} {a : ℕ} : (m.removed id a).Ordered := by
  have hheap : ∀ b, b ≠ a → (m.removed id a).heap b = m.heap b := fun b hb => if_neg hb
  refine h.of_sub ?_ (fun b hb => ?_) (fun b hb => ?_) (fun i b hi => ?_) rfl rfl
  · refine sorted_of_key (h.sorted.sublist (OrderedSet.eraseBy_sublist _ _ _)) fun b hb => ?_
    exact key_free (h.mem_of_mem_removed id hb).2
  · obtain ⟨hmem, hne⟩ := h.mem_of_mem_removed id hb
    rw [hheap b hne]
    exact h.live b hmem
  · rw [heap_removed] at hb
    split at hb
    · cases hb
    · exact hb
  · rw [getElem?_removed] at hi
    split at hi
    · cases hi
    · exact hi

/-- So does `process`. -/
theorem Processed.ordered {ran : List κ} (hp : Processed now [] m.timers m m' ran)
    (h : m.Ordered) : m'.Ordered := by
  refine h.of_sub hp.sorted (fun a ha => (hp.sub a ha).2) (fun a ha => ?_)
    (fun id a hid => ((hp.idtimer id a).mp hid).1) hp.next hp.maxid
  rw [hp.heap] at ha
  split at ha
  · cases ht : m.heap a with
    | none => rw [ht] at ha; cases ha
    | some t => rfl
  · exact ha

/-- **Every call keeps the order of the set.** -/
theorem Ordered.exec (h : m.Ordered) {call : TimerCall κ} (hexec : m.exec call = .ok (reply, m')) :
    m'.Ordered := by
  cases call with
  | setTimer now sec usec persistent callback left =>
      obtain ⟨id, maxid, -, rfl, -, hid0, hidmax, hmax⟩ := h.setTimer_inv hexec
      exact h.armed hid0 hidmax hmax
  | setPersistent id =>
      obtain ⟨-, ⟨-, rfl⟩ | ⟨a, t, -, ht, rfl⟩⟩ := setPersistent_inv hexec
      · exact h
      · exact h.persist ht
  | remove id =>
      obtain ⟨-, ⟨-, rfl⟩ | ⟨a, t, -, -, rfl⟩⟩ := remove_inv hexec
      · exact h
      · exact h.removed
  | process now =>
      obtain ⟨ran, -, hp⟩ := h.process_inv hexec
      exact hp.ordered h

/-- **Run lemma.** The manager is in order in every state reached. -/
theorem ordered_of_reachable (h : (system κ).Reachable m) : m.Ordered :=
  h.invariant (fun _ hinit => hinit ▸ Ordered.start) fun _ _ _ hs hstep => hs.exec hstep

end TimerManager

end Libio
