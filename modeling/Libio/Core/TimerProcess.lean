import Libio.Core.Timers
import Mathlib.Data.List.Nodup
import Mathlib.Data.Prod.Lex
import Mathlib.Algebra.Order.BigOperators.Group.List

/-! # What a call of `process` does

The loop of `time::process` for any set of timers: deadlines may be written in any way, may coincide,
and a timer that comes around may be due again. The set is ordered by the two fields of a deadline,
seconds first, and this order alone decides. `processed_process` says which timers run, what becomes
of the records, the set and the map, and that the loop ends. -/

namespace Libio

universe u

variable {κ : Type u}

/-- The place of a time in the order of `timercmp`: seconds first, then microseconds. -/
def Timeval.key (a : Timeval) : ℤ ×ₗ ℤ := toLex (a.sec, a.usec)

/-- The key of a time determines it. -/
theorem Timeval.key_inj {a b : Timeval} : a.key = b.key ↔ a = b := by
  obtain ⟨s, u⟩ := a
  obtain ⟨s', u'⟩ := b
  simp [key]

/-- The comparison is that of the places, normal or not. -/
theorem timercmp_iff_key {a b : Timeval} : timercmp a b = true ↔ a.key < b.key := by
  unfold timercmp Timeval.key
  rw [Prod.Lex.toLex_lt_toLex]
  split
  · next h => simp [h]
  · next h => simp [h]

namespace Timer

/-- The loop runs the timer. -/
def Due (now : Timeval) (t : Timer κ) : Prop := t.timeout.key ≤ now.key

/-- What is due is what `timercmp` does not find to be later. -/
theorem due_iff {now : Timeval} {t : Timer κ} : t.Due now ↔ timercmp now t.timeout = false := by
  rw [Due, ← not_lt, ← timercmp_iff_key, Bool.not_eq_true]

instance (now : Timeval) (t : Timer κ) : Decidable (t.Due now) := decidable_of_iff _ due_iff.symm

/-- The timer is deleted when it has run. -/
def Finishes (now : Timeval) (t : Timer κ) : Prop := t.Due now ∧ t.persistent = false

instance (now : Timeval) (t : Timer κ) : Decidable (t.Finishes now) :=
  inferInstanceAs (Decidable (_ ∧ _))

/-- A timer with the deadline the loop gives it when it has run. -/
def rearmed (now : Timeval) (t : Timer κ) : Timer κ := { t with timeout := timeradd now t.tv }

/-- What is left of a timer when the loop has passed it. -/
def after (now : Timeval) (t : Timer κ) : Option (Timer κ) :=
  if t.Due now then if t.persistent then some (t.rearmed now) else none else some t

variable {now : Timeval} {t : Timer κ}

/-- A timer that is not due stays as it is. -/
theorem after_of_not_due (h : ¬t.Due now) : t.after now = some t := if_neg h

/-- A persistent timer that is due is armed again. -/
theorem after_of_persistent (h : t.Due now) (hp : t.persistent = true) :
    t.after now = some (t.rearmed now) := by
  rw [after, if_pos h, if_pos hp]

/-- A timer that finishes is gone. -/
theorem after_of_finishes (h : t.Finishes now) : t.after now = none := by
  rw [after, if_pos h.1, h.2]
  rfl

/-- What does not finish is still there. -/
theorem after_isSome : (t.after now).isSome ↔ ¬t.Finishes now := by
  unfold after Finishes
  split
  · next h => cases hp : t.persistent <;> simp [h]
  · next h => simp [h]

/-- The callback of a timer stays. -/
theorem callback_of_after {u : Timer κ} (h : t.after now = some u) : t.callback = u.callback := by
  unfold after at h
  split at h
  · split at h
    · obtain rfl := Option.some.inj h
      rfl
    · cases h
  · obtain rfl := Option.some.inj h
    rfl

/-- Running a timer a second time in one call leaves the same. -/
theorem after_rearmed (hp : t.persistent = true) :
    (t.rearmed now).after now = some (t.rearmed now) := by
  by_cases h : (t.rearmed now).Due now
  · exact after_of_persistent h hp
  · exact after_of_not_due h

end Timer

namespace TimerManager

variable (m : TimerManager κ)

/-- The place of a timer in the set. -/
def key (a : ℕ) : ℤ ×ₗ ℤ := (m.timeout a).key

variable {m} {a b ti : ℕ} {t : Timer κ} {now : Timeval} {passed rest : List ℕ}

/-- The order of the set is the order of the keys. -/
theorem compares_key (a : ℕ) (l : List ℕ) : OrderedSet.Compares m.before m.key a l :=
  fun _ _ => ⟨timercmp_iff_key, timercmp_iff_key⟩

/-- The key of a timer that is there. -/
theorem key_eq (h : m.heap a = some t) : m.key a = t.timeout.key := by
  rw [key, timeout, h]
  rfl

/-- The keys when a timer is stored. -/
theorem key_store (a : ℕ) (t : Timer κ) (b : ℕ) :
    (m.store a t).key b = if b = a then t.timeout.key else m.key b := by
  unfold key timeout store
  by_cases h : b = a <;> simp [h]

/-- The other keys when a timer is deleted. -/
theorem key_free (h : b ≠ a) : (m.free a).key b = m.key b := by
  simp [key, timeout, free, h]

/-- An order of places goes over to a manager in which the places are the same. -/
theorem sorted_of_key {m' : TimerManager κ} {l : List ℕ} (h : OrderedSet.Sorted m.key l)
    (hkey : ∀ a ∈ l, m'.key a = m.key a) : OrderedSet.Sorted m'.key l := by
  refine List.Pairwise.imp_of_mem (fun {a b} ha hb hlt => ?_) h
  rw [hkey a ha, hkey b hb]
  exact hlt

/-! ## The iterator -/

/-- A list is cut in front of the first occurrence of an element. -/
theorem takeWhile_ne_append {p q : List ℕ} (h : b ∉ p) :
    (p ++ b :: q).takeWhile (· ≠ b) = p ∧ (p ++ b :: q).dropWhile (· ≠ b) = b :: q := by
  have hp : ∀ x ∈ p, decide (x ≠ b) = true := fun x hx =>
    decide_eq_true fun hxb => h (hxb ▸ hx)
  rw [List.takeWhile_append_of_pos hp, List.dropWhile_append_of_pos hp]
  simp

/-- Where the iterator stands when `ti` was inserted, or was not because of an equal place: the same
elements are ahead, or those and `ti`, which is not the first of them. -/
def Resumes (ti : ℕ) (passed rest passed' rest' : List ℕ) : Prop :=
  (rest' = rest ∧ (∀ a ∈ passed', a = ti ∨ a ∈ passed) ∧ ∀ a ∈ passed, a ∈ passed') ∨
    (passed' = passed ∧ ∃ l₁ l₂, rest = l₁ ++ l₂ ∧ l₁ ≠ [] ∧ rest' = l₁ ++ ti :: l₂)

/-- What is ahead of the iterator and behind it, the inserted element aside. -/
theorem Resumes.mem {passed' rest' : List ℕ} (h : Resumes ti passed rest passed' rest') :
    (∀ a, a ≠ ti → (a ∈ rest' ↔ a ∈ rest)) ∧ (∀ a ∈ passed, a ∈ passed') ∧
      ∀ a ∈ passed', a = ti ∨ a ∈ passed := by
  rcases h with ⟨rfl, hsub, hsup⟩ | ⟨rfl, l₁, l₂, rfl, -, rfl⟩
  · exact ⟨fun a _ => Iff.rfl, hsup, hsub⟩
  · refine ⟨fun a ha => ?_, fun a ha => ha, fun a ha => .inr ha⟩
    simp only [List.mem_append, List.mem_cons, ha, false_or]

/-- An insertion in front of the iterator leaves what is ahead. -/
theorem iterator_front {l₁ l₂ q : List ℕ} (hb : b ∉ l₁ ++ l₂) (hti : b ≠ ti) :
    ∃ passed' rest', iterator (b :: q) (l₁ ++ ti :: (l₂ ++ b :: q)) = (passed', rest') ∧
      passed' ++ rest' = l₁ ++ ti :: (l₂ ++ b :: q) ∧
      Resumes ti (l₁ ++ l₂) (b :: q) passed' rest' := by
  have hb' : b ∉ l₁ ++ ti :: l₂ := by
    simp only [List.mem_append, List.mem_cons, not_or] at hb ⊢
    exact ⟨hb.1, hti, hb.2⟩
  have hset : l₁ ++ ti :: (l₂ ++ b :: q) = (l₁ ++ ti :: l₂) ++ b :: q := by simp
  obtain ⟨htake, hdrop⟩ := takeWhile_ne_append (q := q) hb'
  refine ⟨l₁ ++ ti :: l₂, b :: q, ?_, hset.symm, .inl ⟨rfl, ?_, ?_⟩⟩
  · rw [hset, iterator, htake, hdrop]
  · intro a ha
    simp only [List.mem_append, List.mem_cons] at ha ⊢
    tauto
  · intro a ha
    simp only [List.mem_append, List.mem_cons] at ha ⊢
    tauto

/-- **An insertion does not move the iterator** off the element it stands at. -/
theorem iterator_insertBy (lt : ℕ → ℕ → Bool) (hnodup : (passed ++ rest).Nodup)
    (hti : ti ∉ passed ++ rest) :
    ∃ passed' rest', iterator rest (OrderedSet.insertBy lt ti (passed ++ rest)) = (passed', rest') ∧
      passed' ++ rest' = OrderedSet.insertBy lt ti (passed ++ rest) ∧
      Resumes ti passed rest passed' rest' := by
  cases rest with
  | nil =>
      refine ⟨_, [], rfl, by simp, .inl ⟨rfl, ?_⟩⟩
      rw [List.append_nil]
      rcases OrderedSet.insertBy_cases lt ti passed with hsame | ⟨l₁, l₂, rfl, hins⟩
      · rw [hsame]
        exact ⟨fun a ha => .inr ha, fun a ha => ha⟩
      · rw [hins]
        constructor <;> intro a ha <;> simp only [List.mem_append, List.mem_cons] at ha ⊢ <;> tauto
  | cons b rest =>
      have hb : b ∉ passed := by
        have := (List.nodup_append.mp hnodup).2.2
        exact fun hin => this b hin b List.mem_cons_self rfl
      rcases OrderedSet.insertBy_cases lt ti (passed ++ b :: rest) with hsame | ⟨l₁, l₂, hl, hins⟩
      · obtain ⟨htake, hdrop⟩ := takeWhile_ne_append (q := rest) hb
        refine ⟨passed, b :: rest, ?_, hsame.symm,
          .inl ⟨rfl, fun a ha => .inr ha, fun a ha => ha⟩⟩
        rw [hsame, iterator, htake, hdrop]
      · rw [hins]
        rcases List.append_eq_append_iff.mp hl with ⟨as, rfl, has⟩ | ⟨bs, rfl, rfl⟩
        · cases as with
          | nil =>
              -- the new element stands right in front of the iterator
              obtain rfl : b :: rest = l₂ := has
              have hne : b ≠ ti := fun he => hti (by simp [he])
              have hb' : b ∉ passed ++ [] := by rwa [List.append_nil]
              simpa using iterator_front (q := rest) hb' hne
          | cons c as =>
              obtain ⟨rfl, rfl⟩ := List.cons.inj has
              obtain ⟨htake, hdrop⟩ := takeWhile_ne_append (q := as ++ ti :: l₂) hb
              refine ⟨passed, b :: as ++ ti :: l₂, ?_, by simp,
                .inr ⟨rfl, b :: as, l₂, rfl, by simp, rfl⟩⟩
              have hset : passed ++ b :: as ++ ti :: l₂ = passed ++ b :: (as ++ ti :: l₂) := by simp
              rw [hset, iterator, htake, hdrop]
              rfl
        · exact iterator_front hb fun he => hti (by simp [he])

/-- The iterator points to the same timer as before. -/
theorem head?_iterator {lt : ℕ → ℕ → Bool} {passed' rest' : List ℕ}
    (h : iterator rest (OrderedSet.insertBy lt ti (passed ++ rest)) = (passed', rest')) :
    rest'.head? = rest.head? := by
  cases rest with
  | nil =>
      obtain ⟨rfl, rfl⟩ := Prod.mk.inj h
      rfl
  | cons b rest =>
      obtain ⟨rfl, rfl⟩ := Prod.mk.inj h
      have hb : b ∈ OrderedSet.insertBy lt ti (passed ++ b :: rest) :=
        OrderedSet.mem_insertBy_of_mem (by simp)
      obtain ⟨p, q, hset, hp⟩ := List.eq_append_cons_of_mem hb
      rw [hset, (takeWhile_ne_append hp).2]
      rfl

/-! ## The loop -/

/-- Rounds the loop may need for a timer: once it has its new deadline, it comes around at most once
more. -/
def rounds (m : TimerManager κ) (now : Timeval) (a : ℕ) : ℕ :=
  (m.heap a).elim 0 fun t => if t.timeout = timeradd now t.tv then 1 else 2

/-- The deadlines of the timers in a list differ, those that the loop gives them included. -/
def Apart (m : TimerManager κ) (now : Timeval) (l : List ℕ) : Prop :=
  ∀ a ∈ l, ∀ t ∈ m.heap a, t.Due now → t.persistent = true → ∀ b ∈ l, b ≠ a →
    ∀ u ∈ m.heap b, u.timeout ≠ timeradd now t.tv ∧
      (u.Due now → u.persistent = true → timeradd now u.tv ≠ timeradd now t.tv)

/-- Fewer timers with the same contents are still apart. -/
theorem Apart.of_sub {m₁ : TimerManager κ} {l l' : List ℕ} (h : m.Apart now l)
    (hsub : ∀ a ∈ l', a ∈ l ∧ m₁.heap a = m.heap a) : m₁.Apart now l' := by
  intro a ha u hu hdu hpu b hb hba v hv
  obtain ⟨ha, hua⟩ := hsub a ha
  obtain ⟨hb, hvb⟩ := hsub b hb
  exact h a ha u (hua ▸ hu) hdu hpu b hb hba v (hvb ▸ hv)

/-- What is in a list is in it with one more in between. -/
theorem mem_middle (h : a ∈ passed ++ rest) : a ∈ passed ++ ti :: rest :=
  ((List.sublist_cons_self ti rest).append_left passed).subset h

/-- A round with a persistent timer. -/
theorem processLoop_of_persistent {passed' rest' : List ℕ} {ran : List κ} {m' : TimerManager κ}
    (ht : m.heap ti = some t) (hd : t.Due now) (hp : t.persistent = true) (fuel : ℕ)
    (hiter : iterator rest (OrderedSet.insertBy (m.store ti (t.rearmed now)).before ti
      (passed ++ rest)) = (passed', rest'))
    (h : processLoop now fuel passed' rest' (m.store ti (t.rearmed now)) = .ok (ran, m')) :
    processLoop now (fuel + 1) passed (ti :: rest) m = .ok (t.callback :: ran, m') := by
  have hderef : m.deref ti = .ok t := by simp [deref, ht]
  rw [Timer.rearmed] at hiter h
  rw [processLoop, hderef]
  simp only [bind, Except.bind, Timer.due_iff.mp hd, Bool.false_eq_true, if_false, if_pos hp, hiter,
    h]

/-- A round with a timer that is not persistent. -/
theorem processLoop_of_finishes {ran : List κ} {m' : TimerManager κ} (ht : m.heap ti = some t)
    (hf : t.Finishes now) (fuel : ℕ)
    (h : processLoop now fuel passed rest (({ m with idtimer := m.idtimer.erase t.id }).free ti) =
      .ok (ran, m')) :
    processLoop now (fuel + 1) passed (ti :: rest) m = .ok (t.callback :: ran, m') := by
  have hderef : m.deref ti = .ok t := by simp [deref, ht]
  rw [processLoop, hderef]
  simp only [bind, Except.bind, Timer.due_iff.mp hf.1, Bool.false_eq_true, if_false, hf.2, h]

/-- The loop stops in front of a timer that is not due. -/
theorem processLoop_of_not_due (ht : m.heap ti = some t) (hd : ¬t.Due now) (fuel : ℕ) :
    processLoop now fuel passed (ti :: rest) m =
      .ok ([], { m with timers := passed ++ ti :: rest }) := by
  have hderef : m.deref ti = .ok t := by simp [deref, ht]
  cases fuel with
  | zero => rfl
  | succ fuel =>
      have hcmp : timercmp now t.timeout = true := by
        rwa [Timer.due_iff, Bool.not_eq_false] at hd
      rw [processLoop, hderef]
      simp only [bind, Except.bind, hcmp, if_true]

/-- The loop stops where no timer ahead is due. -/
theorem processLoop_stop_of_not_due (hlive : ∀ a ∈ passed ++ rest, (m.heap a).isSome)
    (hdue : ∀ a ∈ rest, ∀ t ∈ m.heap a, ¬t.Due now) (fuel : ℕ) :
    processLoop now fuel passed rest m = .ok ([], { m with timers := passed ++ rest }) := by
  cases rest with
  | nil =>
      cases fuel with
      | zero => rfl
      | succ fuel => rw [processLoop, List.append_nil]
  | cons ti rest =>
      obtain ⟨t, ht⟩ := Option.isSome_iff_exists.mp (hlive ti (by simp))
      exact processLoop_of_not_due ht (hdue ti List.mem_cons_self t ht) fuel

/-- What the loop does with the set `passed ++ rest`, the iterator at the first of `rest`. -/
structure Processed (now : Timeval) (passed rest : List ℕ) (m m' : TimerManager κ) (ran : List κ) :
    Prop where
  heap : ∀ a, m'.heap a = if a ∈ rest then (m.heap a).bind (Timer.after now) else m.heap a
  idtimer : ∀ (id : ℤ) (b : ℕ), m'.idtimer[id]? = some b ↔
    m.idtimer[id]? = some b ∧ ∀ a ∈ rest, ∀ t ∈ m.heap a, t.Finishes now → t.id ≠ id
  next : m'.next = m.next
  maxid : m'.maxid = m.maxid
  ran : ∀ f, f ∈ ran ↔ ∃ a ∈ rest, ∃ t ∈ m.heap a, t.Due now ∧ t.callback = f
  sorted : OrderedSet.Sorted m'.key m'.timers
  sub : ∀ a ∈ m'.timers, (a ∈ passed ∨ a ∈ rest) ∧ (m'.heap a).isSome
  keep : ∀ a, a ∈ passed ∨ (a ∈ rest ∧ ∀ t ∈ m.heap a, ¬t.Due now) → a ∈ m'.timers
  rearmed : m.Apart now (passed ++ rest) →
    ∀ a ∈ rest, ∀ t ∈ m.heap a, t.Due now → t.persistent = true → a ∈ m'.timers

/-- Where no timer ahead is due, nothing happens. -/
theorem Processed.of_not_due (now : Timeval) (hsorted : OrderedSet.Sorted m.key (passed ++ rest))
    (hlive : ∀ a ∈ passed ++ rest, (m.heap a).isSome)
    (hdue : ∀ a ∈ rest, ∀ t ∈ m.heap a, ¬t.Due now) :
    Processed now passed rest m { m with timers := passed ++ rest } [] where
  heap a := by
    split
    · next ha =>
        cases ht : m.heap a with
        | none => rfl
        | some t => exact (Timer.after_of_not_due (hdue a ha t ht)).symm
    · rfl
  idtimer id b := ⟨fun h => ⟨h, fun a ha t ht hf => absurd hf.1 (hdue a ha t ht)⟩, And.left⟩
  next := rfl
  maxid := rfl
  ran f := by
    constructor
    · intro h
      cases h
    · rintro ⟨a, ha, t, ht, hd, -⟩
      exact absurd hd (hdue a ha t ht)
  sorted := hsorted
  sub a ha := ⟨List.mem_append.mp ha, hlive a ha⟩
  keep a ha := List.mem_append.mpr (ha.imp_right And.left)
  rearmed _ a ha t ht hd := absurd hd (hdue a ha t ht)

/-- What holds of the timers ahead, in terms of a manager that differs at the first of them. -/
theorem forall_ahead {m₁ : TimerManager κ} {l l' : List ℕ} {Q : ℕ → Timer κ → Prop}
    (ht : m.heap ti = some t) (hl : ∀ a, a ≠ ti → (a ∈ l' ↔ a ∈ l))
    (hheap : ∀ a, a ≠ ti → m₁.heap a = m.heap a) :
    (∀ a ∈ ti :: l, ∀ u ∈ m.heap a, Q a u) ↔
      Q ti t ∧ ∀ a ∈ l', a ≠ ti → ∀ u ∈ m₁.heap a, Q a u := by
  constructor
  · intro h
    refine ⟨h ti List.mem_cons_self t ht, fun a ha hne u hu => ?_⟩
    exact h a (List.mem_cons_of_mem _ ((hl a hne).mp ha)) u ((hheap a hne).symm.trans hu)
  · rintro ⟨hfirst, h⟩ a ha u hu
    by_cases hne : a = ti
    · subst hne
      rwa [Option.some.inj (hu.symm.trans ht)]
    · have hin := (List.mem_cons.mp ha).resolve_left hne
      exact h a ((hl a hne).mpr hin) hne u ((hheap a hne).trans hu)

/-- The same for what holds of some timer ahead. -/
theorem exists_ahead {m₁ : TimerManager κ} {l l' : List ℕ} {Q : Timer κ → Prop}
    (ht : m.heap ti = some t) (hl : ∀ a, a ≠ ti → (a ∈ l' ↔ a ∈ l))
    (hheap : ∀ a, a ≠ ti → m₁.heap a = m.heap a) :
    (∃ a ∈ ti :: l, ∃ u ∈ m.heap a, Q u) ↔
      Q t ∨ ∃ a ∈ l', a ≠ ti ∧ ∃ u ∈ m₁.heap a, Q u := by
  rw [← not_iff_not]
  push Not
  exact forall_ahead (Q := fun _ u => ¬Q u) ht hl hheap

/-- A due timer that is not persistent is run and deleted. -/
theorem Processed.of_finishes {m' : TimerManager κ} {ran : List κ}
    (hnodup : (passed ++ ti :: rest).Nodup) (ht : m.heap ti = some t) (hf : t.Finishes now)
    (h : Processed now passed rest (({ m with idtimer := m.idtimer.erase t.id }).free ti) m' ran) :
    Processed now passed (ti :: rest) m m' (t.callback :: ran) := by
  have hti : ti ∉ passed ∧ ti ∉ rest := by
    have hnot : ti ∉ passed ++ rest := (List.nodup_cons.mp (List.nodup_middle.mp hnodup)).1
    simpa only [List.mem_append, not_or] using hnot
  have hheap : ∀ a, a ≠ ti →
      (({ m with idtimer := m.idtimer.erase t.id }).free ti).heap a = m.heap a :=
    fun a ha => if_neg ha
  have hne : ∀ a ∈ rest, a ≠ ti := fun a ha he => hti.2 (he ▸ ha)
  have hgone : m'.heap ti = none := by
    rw [h.heap, if_neg hti.2]
    exact if_pos rfl
  exact {
    heap := by
      intro a
      by_cases ha : a = ti
      · subst ha
        rw [hgone, if_pos List.mem_cons_self, ht]
        exact (Timer.after_of_finishes hf).symm
      · rw [h.heap, hheap a ha]
        simp only [List.mem_cons, ha, false_or]
    idtimer := by
      intro id b
      have herase : (m.idtimer.erase t.id)[id]? = some b ↔
          m.idtimer[id]? = some b ∧ t.id ≠ id := by
        rw [Std.ExtTreeMap.getElem?_erase]
        by_cases hid : t.id = id <;> simp [hid]
      rw [h.idtimer, forall_ahead ht (fun _ _ => Iff.rfl) hheap]
      refine (and_congr_left' herase).trans (and_assoc.trans (and_congr_right fun _ => ?_))
      refine and_congr (imp_iff_right hf).symm (forall₂_congr fun a ha => ?_)
      exact (imp_iff_right (hne a ha)).symm
    next := h.next
    maxid := h.maxid
    ran := by
      intro f
      rw [List.mem_cons, h.ran, exists_ahead ht (fun _ _ => Iff.rfl) hheap, eq_comm]
      refine or_congr (and_iff_right hf.1).symm (exists_congr fun a => and_congr_right fun ha => ?_)
      exact (and_iff_right (hne a ha)).symm
    sorted := h.sorted
    sub := by
      intro a ha
      obtain ⟨hin, hlive⟩ := h.sub a ha
      exact ⟨hin.imp_right (List.mem_cons_of_mem _), hlive⟩
    keep := by
      rintro a (ha | ⟨ha, hd⟩)
      · exact h.keep a (.inl ha)
      · rcases List.mem_cons.mp ha with rfl | ha
        · exact absurd hf.1 (hd t ht)
        · exact h.keep a (.inr ⟨ha, fun u hu => hd u ((hheap a (hne a ha)).symm.trans hu)⟩)
    rearmed := by
      intro hapart
      refine (forall_ahead ht (fun _ _ => Iff.rfl) hheap).mpr
        ⟨fun _ hp => absurd (hf.2.symm.trans hp) Bool.false_ne_true, fun a ha _ => ?_⟩
      refine h.rearmed (hapart.of_sub (fun b hb => ?_)) a ha
      have hbti : b ≠ ti := by
        rintro rfl
        exact (List.mem_append.mp hb).elim hti.1 hti.2
      exact ⟨mem_middle hb, hheap b hbti⟩ }

/-- The timers when one is stored. -/
theorem heap_store (a : ℕ) (t : Timer κ) (b : ℕ) :
    (m.store a t).heap b = if b = a then some t else m.heap b := rfl

/-- A deadline that differs from the others is inserted. -/
theorem mem_insertBy_store {l : List ℕ} (hnew : ∀ b ∈ l, m.timeout b ≠ t.timeout)
    (hti : ti ∉ l) : ti ∈ OrderedSet.insertBy (m.store ti t).before ti l := by
  refine (OrderedSet.mem_insertBy (compares_key ti _) (fun b hb => ?_) ti).mpr (.inl rfl)
  have hne : b ≠ ti := fun he => hti (he ▸ hb)
  rw [key_store, key_store, if_neg hne, if_pos rfl]
  exact fun hk => hnew b hb (Timeval.key_inj.mp hk)

/-- The deadlines differ still when a timer has its new one. -/
theorem Apart.store {l l' : List ℕ} (h : m.Apart now l) (ht : m.heap ti = some t)
    (hd : t.Due now) (hp : t.persistent = true) (hti : ti ∈ l) (hl : ∀ a ∈ l', a ∈ l) :
    (m.store ti (t.rearmed now)).Apart now l' := by
  intro a ha u hu hdu hpu b hb hba v hv
  rw [heap_store] at hu hv
  by_cases hati : a = ti
  · subst hati
    obtain rfl : t.rearmed now = u := by simpa using hu
    rw [if_neg hba] at hv
    exact h a hti t ht hd hp b (hl b hb) hba v hv
  · rw [if_neg hati] at hu
    by_cases hbti : b = ti
    · subst hbti
      obtain rfl : t.rearmed now = v := by simpa using hv
      have hne := (h a (hl a ha) u hu hdu hpu b hti hba t ht).2 hd hp
      exact ⟨hne, fun _ _ => hne⟩
    · rw [if_neg hbti] at hv
      exact h a (hl a ha) u hu hdu hpu b (hl b hb) hba v hv

/-- **A timer that is run again** is in the set behind the loop, where its new deadline is that of no
other timer. -/
theorem Processed.mem_of_rearmed {passed' rest' : List ℕ} {m' : TimerManager κ} {ran : List κ}
    (hlive : ∀ a ∈ passed ++ ti :: rest, (m.heap a).isSome) (hti : ti ∉ passed ++ rest)
    (ht : m.heap ti = some t) (hd : t.Due now) (hp : t.persistent = true)
    (hset : passed' ++ rest' =
      OrderedSet.insertBy (m.store ti (t.rearmed now)).before ti (passed ++ rest))
    (h : Processed now passed' rest' (m.store ti (t.rearmed now)) m' ran)
    (hapart : m.Apart now (passed ++ ti :: rest))
    (hapart' : (m.store ti (t.rearmed now)).Apart now (passed' ++ rest')) : ti ∈ m'.timers := by
  have hself : (m.store ti (t.rearmed now)).heap ti = some (t.rearmed now) := if_pos rfl
  have hin : ti ∈ passed' ++ rest' := by
    rw [hset]
    refine mem_insertBy_store (fun b hb => ?_) hti
    obtain ⟨u, hu⟩ := Option.isSome_iff_exists.mp (hlive b (mem_middle hb))
    rw [timeout, hu]
    exact (hapart ti (by simp) t ht hd hp b (mem_middle hb) (fun he => hti (he ▸ hb)) u hu).1
  -- it stands behind the iterator, or it comes around again
  rcases List.mem_append.mp hin with hin | hin
  · exact h.keep ti (.inl hin)
  · by_cases hd' : (t.rearmed now).Due now
    · exact h.rearmed hapart' ti hin _ hself hd' hp
    · refine h.keep ti (.inr ⟨hin, fun v hv => ?_⟩)
      obtain rfl := Option.some.inj (hself.symm.trans hv)
      exact hd'

/-- A due timer that is persistent is run and inserted again. -/
theorem Processed.of_persistent {passed' rest' : List ℕ} {m' : TimerManager κ} {ran : List κ}
    (hnodup : (passed ++ ti :: rest).Nodup) (hlive : ∀ a ∈ passed ++ ti :: rest, (m.heap a).isSome)
    (ht : m.heap ti = some t) (hd : t.Due now) (hp : t.persistent = true)
    (hres : Resumes ti passed rest passed' rest')
    (hset : passed' ++ rest' =
      OrderedSet.insertBy (m.store ti (t.rearmed now)).before ti (passed ++ rest))
    (h : Processed now passed' rest' (m.store ti (t.rearmed now)) m' ran) :
    Processed now passed (ti :: rest) m m' (t.callback :: ran) := by
  obtain ⟨hrest, hsup, hsub⟩ := hres.mem
  have hti : ti ∉ passed ++ rest := (List.nodup_cons.mp (List.nodup_middle.mp hnodup)).1
  have hself : (m.store ti (t.rearmed now)).heap ti = some (t.rearmed now) := if_pos rfl
  have hheap : ∀ a, a ≠ ti → (m.store ti (t.rearmed now)).heap a = m.heap a := fun a ha => if_neg ha
  exact {
    heap := by
      intro a
      rw [h.heap]
      by_cases ha : a = ti
      · -- a second round, if there is one, leaves what the first one has left
        subst ha
        rw [hself, if_pos List.mem_cons_self, ht]
        refine Eq.trans ?_ (Timer.after_of_persistent hd hp).symm
        split
        · exact Timer.after_rearmed hp
        · rfl
      · rw [hheap a ha]
        simp only [List.mem_cons, ha, false_or, hrest a ha]
    idtimer := by
      intro id b
      -- only timers that finish take entries with them
      rw [h.idtimer, forall_ahead ht hrest hheap]
      refine and_congr_right fun _ => ⟨fun hall => ⟨fun hf => ?_, fun a ha _ => hall a ha⟩, ?_⟩
      · exact absurd (hf.2.symm.trans hp) Bool.false_ne_true
      · rintro ⟨-, hall⟩ a ha u hu hf
        by_cases hne : a = ti
        · subst hne
          obtain rfl := Option.some.inj (hself.symm.trans hu)
          exact absurd (hf.2.symm.trans hp) Bool.false_ne_true
        · exact hall a ha hne u hu hf
    next := h.next
    maxid := h.maxid
    ran := by
      intro f
      rw [List.mem_cons, h.ran, exists_ahead ht hrest hheap]
      constructor
      · rintro (rfl | ⟨a, ha, u, hu, hdu, rfl⟩)
        · exact .inl ⟨hd, rfl⟩
        · by_cases hne : a = ti
          · subst hne
            obtain rfl := Option.some.inj (hself.symm.trans hu)
            exact .inl ⟨hd, rfl⟩
          · exact .inr ⟨a, ha, hne, u, hu, hdu, rfl⟩
      · rintro (⟨-, rfl⟩ | ⟨a, ha, -, hu⟩)
        · exact .inl rfl
        · exact .inr ⟨a, ha, hu⟩
    sorted := h.sorted
    sub := by
      intro a ha
      obtain ⟨hin, hlive⟩ := h.sub a ha
      refine ⟨?_, hlive⟩
      by_cases hne : a = ti
      · exact .inr (by simp [hne])
      · refine hin.imp (fun hin => (hsub a hin).resolve_left hne) fun hin => ?_
        exact List.mem_cons_of_mem _ ((hrest a hne).mp hin)
    keep := by
      rintro a (ha | ⟨ha, hda⟩)
      · exact h.keep a (.inl (hsup a ha))
      · have hne : a ≠ ti := fun he => hda t (he ▸ ht) hd
        have hin := (List.mem_cons.mp ha).resolve_left hne
        exact h.keep a (.inr ⟨(hrest a hne).mpr hin,
          fun u hu => hda u ((hheap a hne).symm.trans hu)⟩)
    rearmed := by
      intro hapart
      have hmem : ∀ a ∈ passed' ++ rest', a ∈ passed ++ ti :: rest := by
        intro a ha
        rw [hset] at ha
        rcases OrderedSet.mem_of_insertBy ha with rfl | ha
        · simp
        · exact mem_middle ha
      have hapart' := hapart.store ht hd hp (by simp) hmem
      exact (forall_ahead ht hrest hheap).mpr
        ⟨fun _ _ => h.mem_of_rearmed hlive hti ht hd hp hset hapart hapart',
          fun a ha _ => h.rearmed hapart' a ha⟩ }

/-- A timer that is there has a round in front of it. -/
theorem rounds_pos (now : Timeval) (h : m.heap a = some t) : 0 < m.rounds now a := by
  rw [rounds, h]
  simp only [Option.elim_some]
  split <;> omega

/-- Without the timer fewer rounds are left. -/
theorem rounds_free (now : Timeval) (hti : ti ∉ rest) (ht : m.heap ti = some t) (id : ℤ) :
    (rest.map ((({ m with idtimer := m.idtimer.erase id }).free ti).rounds now)).sum <
      ((ti :: rest).map (m.rounds now)).sum := by
  have hsame : rest.map ((({ m with idtimer := m.idtimer.erase id }).free ti).rounds now) =
      rest.map (m.rounds now) := by
    refine List.map_congr_left fun a ha => ?_
    have hne : a ≠ ti := fun he => hti (he ▸ ha)
    rw [rounds, rounds, free]
    simp only [hne, if_false]
  rw [hsame, List.map_cons, List.sum_cons]
  exact Nat.lt_add_of_pos_left (rounds_pos now ht)

/-- Inserting the timer again keeps the order. -/
theorem sorted_store {l : List ℕ} (hsorted : OrderedSet.Sorted m.key l) (hti : ti ∉ l) :
    OrderedSet.Sorted (m.store ti t).key
      (OrderedSet.insertBy (m.store ti t).before ti l) := by
  refine OrderedSet.Sorted.insertBy_any (sorted_of_key hsorted fun a ha => ?_) (compares_key ti _)
  rw [key_store, if_neg fun he : a = ti => hti (he ▸ ha)]

/-- With the new deadline fewer rounds are left: where the timer comes around again, its deadline was
another one before. -/
theorem rounds_store {passed' rest' : List ℕ}
    (hsorted : OrderedSet.Sorted m.key (passed ++ ti :: rest)) (ht : m.heap ti = some t)
    (hres : Resumes ti passed rest passed' rest')
    (hset : passed' ++ rest' =
      OrderedSet.insertBy (m.store ti (t.rearmed now)).before ti (passed ++ rest)) :
    (rest'.map ((m.store ti (t.rearmed now)).rounds now)).sum <
      ((ti :: rest).map (m.rounds now)).sum := by
  rw [List.map_cons, List.sum_cons]
  have hti : ti ∉ passed ++ rest :=
    (List.nodup_cons.mp (List.nodup_middle.mp hsorted.nodup)).1
  have hrounds : rest.map ((m.store ti (t.rearmed now)).rounds now) = rest.map (m.rounds now) := by
    refine List.map_congr_left fun a ha => ?_
    have hne : a ≠ ti := fun he => hti (by simp [← he, ha])
    rw [rounds, rounds, heap_store, if_neg hne]
  have hpos := rounds_pos now ht
  rcases hres with ⟨rfl, -, -⟩ | ⟨rfl, l₁, l₂, rfl, hl₁, rfl⟩
  · rw [hrounds]
    omega
  · obtain ⟨b, l₁, rfl⟩ := List.exists_cons_of_ne_nil hl₁
    have hself : (m.store ti (t.rearmed now)).rounds now ti = 1 := by
      rw [rounds, heap_store, if_pos rfl]
      exact if_pos rfl
    -- `b` stood behind the old deadline and stands in front of the new one
    have hold : m.key ti < m.key b := by
      have := (List.pairwise_append.mp hsorted).2.1
      exact (List.pairwise_cons.mp this).1 b (by simp)
    have hnew : m.key b < (t.rearmed now).timeout.key := by
      have hs := sorted_store (t := t.rearmed now) (hsorted.sublist (by simp)) hti
      rw [← hset] at hs
      have hlt : (m.store ti (t.rearmed now)).key b < (m.store ti (t.rearmed now)).key ti :=
        (List.pairwise_cons.mp (List.pairwise_append.mp hs).2.1).1 ti (by simp)
      rwa [key_store, key_store, if_pos rfl, if_neg fun he => hti (by simp [← he])] at hlt
    have htwo : m.rounds now ti = 2 := by
      rw [rounds, ht]
      refine if_neg fun he => ?_
      rw [key_eq ht, he] at hold
      exact absurd (hold.trans hnew) (lt_irrefl _)
    have hperm : (((b :: l₁) ++ ti :: l₂).map ((m.store ti (t.rearmed now)).rounds now)).sum =
        1 + (((b :: l₁) ++ l₂).map ((m.store ti (t.rearmed now)).rounds now)).sum := by
      simp only [List.map_append, List.map_cons, List.sum_append, List.sum_cons, hself]
      omega
    rw [hperm, hrounds, htwo]
    omega

/-- Behind a timer that is not due none is. -/
theorem not_due_of_sorted (hsorted : OrderedSet.Sorted m.key (passed ++ ti :: rest))
    (ht : m.heap ti = some t) (hd : ¬t.Due now) : ∀ a ∈ ti :: rest, ∀ u ∈ m.heap a, ¬u.Due now := by
  intro a ha u hu
  rcases List.mem_cons.mp ha with rfl | ha
  · rwa [Option.some.inj (hu.symm.trans ht)]
  · have hlt := (List.pairwise_cons.mp (List.pairwise_append.mp hsorted).2.1).1 a ha
    rw [key_eq ht, key_eq hu] at hlt
    exact fun hdu => hd (hlt.le.trans hdu)

/-- **Induction along the loop**: over the rounds that are left, by what the timer at the iterator
is. -/
theorem loop_induction {P : List ℕ → List ℕ → TimerManager κ → Prop} (now : Timeval)
    (stop : ∀ {m : TimerManager κ} {passed rest : List ℕ},
      OrderedSet.Sorted m.key (passed ++ rest) → (∀ a ∈ passed ++ rest, (m.heap a).isSome) →
      (∀ a ∈ rest, ∀ t ∈ m.heap a, ¬t.Due now) → P passed rest m)
    (finishes : ∀ {m : TimerManager κ} {passed rest : List ℕ} {ti : ℕ} {t : Timer κ},
      (passed ++ ti :: rest).Nodup → m.heap ti = some t → t.Finishes now →
      (rest.map ((({ m with idtimer := m.idtimer.erase t.id }).free ti).rounds now)).sum <
        ((ti :: rest).map (m.rounds now)).sum →
      P passed rest (({ m with idtimer := m.idtimer.erase t.id }).free ti) → P passed (ti :: rest) m)
    (persistent : ∀ {m : TimerManager κ} {passed rest passed' rest' : List ℕ} {ti : ℕ} {t : Timer κ},
      (passed ++ ti :: rest).Nodup → (∀ a ∈ passed ++ ti :: rest, (m.heap a).isSome) →
      m.heap ti = some t → t.Due now → t.persistent = true →
      iterator rest (OrderedSet.insertBy (m.store ti (t.rearmed now)).before ti (passed ++ rest)) =
        (passed', rest') →
      passed' ++ rest' =
        OrderedSet.insertBy (m.store ti (t.rearmed now)).before ti (passed ++ rest) →
      Resumes ti passed rest passed' rest' →
      (rest'.map ((m.store ti (t.rearmed now)).rounds now)).sum <
        ((ti :: rest).map (m.rounds now)).sum →
      P passed' rest' (m.store ti (t.rearmed now)) → P passed (ti :: rest) m)
    {m : TimerManager κ} {passed rest : List ℕ} (hsorted : OrderedSet.Sorted m.key (passed ++ rest))
    (hlive : ∀ a ∈ passed ++ rest, (m.heap a).isSome) : P passed rest m := by
  -- each round uses up one of the rounds the timers ahead may need
  obtain ⟨n, hn⟩ : ∃ n, (rest.map (m.rounds now)).sum = n := ⟨_, rfl⟩
  induction n using Nat.strong_induction_on generalizing m passed rest with
  | _ n ih =>
      subst hn
      cases rest with
      | nil => exact stop hsorted hlive (by simp)
      | cons ti rest =>
          obtain ⟨t, ht⟩ := Option.isSome_iff_exists.mp (hlive ti (by simp))
          have hnodup := hsorted.nodup
          have hti : ti ∉ passed ++ rest := (List.nodup_cons.mp (List.nodup_middle.mp hnodup)).1
          have hheap : ∀ a ∈ passed ++ rest, a ≠ ti := fun a ha he => hti (he ▸ ha)
          have hothers : OrderedSet.Sorted m.key (passed ++ rest) := hsorted.sublist (by simp)
          by_cases hd : t.Due now
          · cases hp : t.persistent with
            | true =>
                obtain ⟨passed', rest', hiter, hset, hres⟩ := iterator_insertBy
                  (m.store ti (t.rearmed now)).before hothers.nodup hti
                have hround := rounds_store hsorted ht hres hset
                -- the iterator stands at the first of the same timers, and `ti` is somewhere
                refine persistent hnodup hlive ht hd hp hiter hset hres hround
                  (ih _ hround (hset ▸ sorted_store hothers hti) (fun a ha => ?_) rfl)
                by_cases hne : a = ti
                · rw [heap_store, if_pos hne]
                  rfl
                · rw [heap_store, if_neg hne]
                  refine hlive a (mem_middle ?_)
                  rw [hset] at ha
                  exact (OrderedSet.mem_of_insertBy ha).resolve_left hne
            | false =>
                have hkey : ∀ a ∈ passed ++ rest,
                    (({ m with idtimer := m.idtimer.erase t.id }).free ti).key a = m.key a :=
                  fun a ha => key_free (hheap a ha)
                have hround := rounds_free now
                  (fun hin => hti (List.mem_append_right _ hin)) ht t.id
                refine finishes hnodup ht ⟨hd, hp⟩ hround
                  (ih _ hround (sorted_of_key hothers hkey) (fun a ha => ?_) rfl)
                rw [free]
                simp only [hheap a ha, if_false]
                exact hlive a (mem_middle ha)
          · exact stop hsorted hlive (not_due_of_sorted hsorted ht hd)

/-- **The loop ends**, and does what is said above. -/
theorem processed_loop (hsorted : OrderedSet.Sorted m.key (passed ++ rest))
    (hlive : ∀ a ∈ passed ++ rest, (m.heap a).isSome) :
    ∀ fuel, (rest.map (m.rounds now)).sum ≤ fuel →
      ∃ ran m', processLoop now fuel passed rest m = .ok (ran, m') ∧
        Processed now passed rest m m' ran := by
  refine loop_induction (P := fun passed rest m => ∀ fuel, (rest.map (m.rounds now)).sum ≤ fuel →
    ∃ ran m', processLoop now fuel passed rest m = .ok (ran, m') ∧
      Processed now passed rest m m' ran) now ?_ ?_ ?_ hsorted hlive
  · intro m passed rest hsorted hlive hdue fuel _
    exact ⟨[], _, processLoop_stop_of_not_due hlive hdue fuel,
      .of_not_due now hsorted hlive hdue⟩
  · intro m passed rest ti t hnodup ht hf hround ih fuel hfuel
    obtain ⟨fuel, rfl⟩ : ∃ n, fuel = n + 1 := ⟨fuel - 1, by omega⟩
    obtain ⟨ran, m', hloop, hproc⟩ := ih fuel (by omega)
    exact ⟨_, m', processLoop_of_finishes ht hf fuel hloop, .of_finishes hnodup ht hf hproc⟩
  · intro m passed rest passed' rest' ti t hnodup hlive ht hd hp hiter hset hres hround ih fuel hfuel
    obtain ⟨fuel, rfl⟩ : ∃ n, fuel = n + 1 := ⟨fuel - 1, by omega⟩
    obtain ⟨ran, m', hloop, hproc⟩ := ih fuel (by omega)
    exact ⟨_, m', processLoop_of_persistent ht hd hp fuel hiter hloop,
      .of_persistent hnodup hlive ht hd hp hres hset hproc⟩

/-- There are at most two rounds for each timer. -/
theorem sum_rounds_le (m : TimerManager κ) (now : Timeval) (l : List ℕ) :
    (l.map (m.rounds now)).sum ≤ 2 * l.length := by
  induction l with
  | nil => simp
  | cons a l ih =>
      have hle : m.rounds now a ≤ 2 := by
        unfold rounds
        cases m.heap a with
        | none => simp
        | some t => simp only [Option.elim_some]; split <;> omega
      rw [List.map_cons, List.sum_cons, List.length_cons]
      omega

/-- **What a call of `process` does**, and that it returns, for every sorted set of live timers. -/
theorem processed_process (now : Timeval) (hsorted : OrderedSet.Sorted m.key m.timers)
    (hlive : ∀ a ∈ m.timers, (m.heap a).isSome) :
    ∃ ran m', m.process now = .ok (ran, m') ∧ Processed now [] m.timers m m' ran :=
  processed_loop hsorted hlive _ (m.sum_rounds_le now m.timers)

end TimerManager

end Libio
